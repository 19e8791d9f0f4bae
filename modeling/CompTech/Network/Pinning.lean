import CompTech.Lib.RoundRobin
import CompTech.Lib.Tables
import CompTech.Network.CoreIds
import CompTech.Network.Cores

/-!
# Threads on processors

`set_attrs` gives each thread one processor: thread `i` goes to the core `i % n_cpu`, and there to
the processor `(i / n_cpu) % n_proc`. On a machine whose cores have the same number of processors
this is the round robin of `Lib.place`, and so each processor gets its share
(`threads_pinned_evenly`).

The two divisors come out of `get_mycpu_info`, and what is checked in between is the pointer `cpus`
alone. A group that was opened is never empty, so both are nonzero as soon as there is an id
(`divisors_nonzero_iff`).
-/

namespace CompTech.Network

open Lib

/-! ## set_attrs -/

/-- What is kept of a `pthread_attr_t`: the processors that `CPU_SET` put into its set. A processor
    of the machine is below `CPU_SETSIZE`. -/
structure Attr where
  affinity : List Int
  deriving DecidableEq, Repr

/-- `a / b` and `a % b`; by zero they are undefined. -/
def divMod (a b : Nat) : Option (Nat × Nat) := if b = 0 then none else some (a / b, a % b)

/-- `cpu_info.cpus[num_cpu]` and `i / cpu_info.n_cpu` for thread `i`. -/
def threadCpu (info : CpuInfo) (i : Nat) : Option (Cpu × Nat) := do
  let (turn, numCpu) ← divMod i info.nCpu
  let cpu ← (← info.cpus)[numCpu]?
  return (cpu, turn)

/-- `cpu_info.cpus[num_cpu].processors[num_proc]` -/
def threadProcessor (info : CpuInfo) (i : Nat) : Option Int := do
  let (cpu, turn) ← threadCpu info i
  -- the second division is by the size of the group
  let (_, numProc) ← divMod turn cpu.nProc
  (← cpu.processors)[numProc]?

/-- The loop. `accepts i` says whether `pthread_attr_setaffinity_np` takes the set of thread `i`. -/
def setAttrsLoop (accepts : Nat → Bool) (info : CpuInfo) :
    List Nat → List Attr → Option (Int × List Attr)
  | [], attrs => some (0, attrs)
  | i :: is, attrs => do
    let processor ← threadProcessor info i
    if accepts i then
      let attrs ← storeAt attrs i fun attr => { attr with affinity := [processor] }
      setAttrsLoop accepts info is attrs
    else some (-1, attrs)

/-- `set_attrs`: the loop over all threads, with the attributes it fills in. -/
def setAttrs (accepts : Nat → Bool) (info : CpuInfo) (attrs : List Attr) (size : Nat) :
    Option (Int × List Attr) :=
  setAttrsLoop accepts info (List.range' 0 size) attrs

/-! ## Every thread in turn -/

section

variable {accepts : Nat → Bool} {info : CpuInfo} {f : Nat → Int}

/-- With a processor for each thread the loop is the loop of its stores, until one is refused. -/
theorem setAttrsLoop_eq : ∀ {is : List Nat} {attrs : List Attr},
    (∀ i ∈ is, threadProcessor info i = some (f i) ∧ i < attrs.length) →
    ∃ check attrs', setAttrsLoop accepts info is attrs = some (check, attrs') ∧
      (check = 0 ↔ ∀ i ∈ is, accepts i = true) ∧
      (check = 0 →
        is.foldlM (fun l i => storeAt l i fun a => { a with affinity := [f i] }) attrs =
          some attrs') := by
  intro is
  induction is with
  | nil => exact fun {attrs} _ => ⟨0, attrs, rfl, by simp, fun _ => rfl⟩
  | cons i is ih =>
    intro attrs h
    obtain ⟨hproc, hlt⟩ := h i (List.mem_cons_self ..)
    by_cases hacc : accepts i = true
    · obtain ⟨attrs₁, hstore⟩ : ∃ attrs₁, storeAt attrs i
          (fun a => { a with affinity := [f i] }) = some attrs₁ := ⟨_, storeAt_of_lt _ hlt⟩
      have hrest : ∀ j ∈ is, threadProcessor info j = some (f j) ∧ j < attrs₁.length := by
        intro j hj
        rw [length_storeAt hstore]
        exact h j (List.mem_cons_of_mem _ hj)
      obtain ⟨check, attrs', hloop, hcheck, hfold⟩ := ih hrest
      refine ⟨check, attrs', ?_, ?_, ?_⟩
      · simp only [setAttrsLoop, hproc, Option.bind_eq_bind, Option.bind_some, hacc, if_true,
          hstore]
        exact hloop
      · rw [hcheck, List.forall_mem_cons]
        exact ⟨fun hall => ⟨hacc, hall⟩, fun hall => hall.2⟩
      · intro hzero
        rw [List.foldlM_cons, hstore]
        exact hfold hzero
    · refine ⟨-1, attrs, ?_, ?_, ?_⟩
      · simp [setAttrsLoop, hproc, hacc]
      · rw [List.forall_mem_cons]
        exact iff_of_false (by omega) (fun hall => hacc hall.1)
      · exact fun hzero => absurd hzero (by omega)

theorem setAttrs_eq {attrs : List Attr} {size : Nat} (hlen : size ≤ attrs.length)
    (h : ∀ i < size, threadProcessor info i = some (f i)) :
    ∃ check attrs', setAttrs accepts info attrs size = some (check, attrs') ∧
      (check = 0 ↔ ∀ i < size, accepts i = true) ∧
      (check = 0 →
        (attrs'.take size).map Attr.affinity = (List.range size).map fun i => [f i]) := by
  have hrange : ∀ {i}, i ∈ List.range' 0 size ↔ i < size := by simp [List.mem_range'_1]
  obtain ⟨check, attrs', hloop, hcheck, hfold⟩ := @setAttrsLoop_eq accepts info f
    (List.range' 0 size) attrs fun i hi => ⟨h i (hrange.mp hi), by have := hrange.mp hi; omega⟩
  refine ⟨check, attrs', hloop, ?_, fun hzero => ?_⟩
  · rw [hcheck]
    exact forall_congr' fun i => imp_congr hrange Iff.rfl
  · have hstores := hfold hzero
    rw [foldlM_storeAt _ _ _ _ (by omega), Option.some.injEq] at hstores
    subst hstores
    refine List.ext_getElem? fun i => ?_
    rw [List.getElem?_map, List.getElem?_map, List.getElem?_take]
    by_cases hi : i < size
    · rw [if_pos hi, List.getElem?_mapIdx, List.getElem?_range hi,
        List.getElem?_eq_getElem (show i < attrs.length by omega)]
      simp [hi]
    · simp [hi]

end

/-! ## A machine with even cores -/

/-- `k` cores with `p` processors each, and no number twice. -/
structure Even (cpus : List Cpu) (k p : Nat) : Prop where
  cores : k ≤ cpus.length
  procs : ∀ c ∈ cpus.take k, c.nProc = p ∧ c.procs.length = p
  /-- no processor is on two cores -/
  distinct : ((cpus.take k).flatMap Cpu.procs).Nodup

/-- What is asked of the processors that the threads got: `sets` has one set a thread. -/
structure Balanced (cpus : List Cpu) (k p : Nat) (sets : List (List Int)) : Prop where
  /-- every thread has one processor of the machine -/
  single : ∀ s ∈ sets, ∃ c ∈ cpus.take k, ∃ x ∈ c.procs, s = [x]
  /-- while there are processors enough, no two threads share one -/
  distinct : sets.length ≤ k * p → sets.Nodup
  /-- two of the first threads are on no core together -/
  spread : ∀ i j, i < min sets.length k → j < min sets.length k → ∀ c ∈ cpus.take k,
    ∀ x ∈ c.procs, ∀ y ∈ c.procs, sets[i]? = some [x] → sets[j]? = some [y] → i = j
  /-- every processor gets its share, rounded down or up -/
  share : ∀ c ∈ cpus.take k, ∀ x ∈ c.procs, sets.count [x] = sets.length / (k * p) ∨
    sets.count [x] = (sets.length + k * p - 1) / (k * p)

section

variable {cpus : List Cpu} {k p i j : Nat} {c c' : Cpu} {x : Int}

theorem nodup_members (ids : List Int) (id : Int) : (members ids id).Nodup :=
  (List.nodup_range.filter _).map fun _ _ h => Int.ofNat_inj.mp h

/-- A processor is on one core. -/
theorem eq_of_mem_members {ids : List Int} {id id' : Int} (h : x ∈ members ids id)
    (h' : x ∈ members ids id') : id = id' := by
  obtain ⟨n, -, rfl⟩ := List.mem_map.mp h
  exact Option.some.inj ((of_mem_members h).symm.trans (of_mem_members h'))

/-- The groups of `get_mycpu_info` are such a machine, when each core is listed `p` times and the
    groups are the cores. -/
theorem Grouped.even {ids : List Int} {nCpu : Nat} (h : Grouped ids cpus nCpu)
    (hp : ∀ id ∈ ids, (members ids id).length = p) : Even cpus nCpu p := by
  have hgroup : ∀ (k : Nat) (c : Cpu), (cpus.take nCpu)[k]? = some c →
      ∃ id, (distinct ids)[k]? = some id ∧ c.nProc = (members ids id).length ∧
        c.procs = members ids id := by
    intro k c hc
    obtain ⟨hk, hcpu⟩ := getElem?_of_take hc
    rw [h.count] at hk
    obtain ⟨c', hc', hproc⟩ := h.groups k _ (List.getElem?_eq_getElem hk)
    obtain rfl := Option.some.inj (hcpu.symm.trans hc')
    exact ⟨_, List.getElem?_eq_getElem hk, hproc⟩
  refine ⟨?_, ?_, List.nodup_flatMap.mpr ⟨?_, ?_⟩⟩
  · by_contra hlt
    have hk : cpus.length < (distinct ids).length := by
      rw [← h.count]
      omega
    obtain ⟨c, hc, -⟩ := h.groups _ _ (List.getElem?_eq_getElem hk)
    rw [List.getElem?_eq_none (le_refl _)] at hc
    exact absurd hc (by simp)
  · intro c hc
    obtain ⟨k, hk⟩ := List.mem_iff_getElem?.mp hc
    obtain ⟨id, hid, hproc, hprocs⟩ := hgroup k c hk
    have hall := hp id (mem_distinct.mp (List.mem_of_getElem? hid))
    exact ⟨hproc.trans hall, by rw [hprocs, hall]⟩
  · intro c hc
    obtain ⟨k, hk⟩ := List.mem_iff_getElem?.mp hc
    obtain ⟨id, -, -, hprocs⟩ := hgroup k c hk
    rw [hprocs]
    exact nodup_members ids id
  · refine List.pairwise_iff_getElem.mpr fun m n hm hn hlt x hx hx' => ?_
    obtain ⟨id, hid, -, hprocs⟩ := hgroup m _ (List.getElem?_eq_getElem hm)
    obtain ⟨id', hid', -, hprocs'⟩ := hgroup n _ (List.getElem?_eq_getElem hn)
    rw [hprocs] at hx
    rw [hprocs'] at hx'
    have hsame := eq_of_mem_members hx hx'
    have := (slot_eq hid).symm.trans ((congrArg (slot ids) hsame).trans (slot_eq hid'))
    omega

/-- Two processors of one core are the same when their numbers are, and two cores share none. -/
theorem Even.place_eq {m n m' n' : Nat} (h : Even cpus k p) (hc : (cpus.take k)[m]? = some c)
    (hc' : (cpus.take k)[m']? = some c') (hx : c.procs[n]? = some x)
    (hx' : c'.procs[n']? = some x) : m = m' ∧ n = n' := by
  obtain ⟨hnodup, hdisj⟩ := List.nodup_flatMap.mp h.distinct
  obtain ⟨hm, rfl⟩ := List.getElem?_eq_some_iff.mp hc
  obtain ⟨hm', rfl⟩ := List.getElem?_eq_some_iff.mp hc'
  have hmem := List.mem_of_getElem? hx
  have hmem' := List.mem_of_getElem? hx'
  obtain rfl : m = m' := by
    by_contra hne
    have hapart : ∀ {m m' : Nat} (hm : m < (cpus.take k).length) (hm' : m' < (cpus.take k).length),
        m < m' → x ∈ (cpus.take k)[m].procs → x ∈ (cpus.take k)[m'].procs → False :=
      fun hm hm' hlt hmem hmem' => List.pairwise_iff_getElem.mp hdisj _ _ hm hm' hlt hmem hmem'
    rcases Nat.lt_or_gt_of_ne hne with hlt | hlt
    · exact hapart hm hm' hlt hmem hmem'
    · exact hapart hm' hm hlt hmem' hmem
  refine ⟨rfl, ?_⟩
  obtain ⟨hn, rfl⟩ := List.getElem?_eq_some_iff.mp hx
  obtain ⟨hn', heq⟩ := List.getElem?_eq_some_iff.mp hx'
  exact ((hnodup _ (List.getElem_mem hm)).getElem_inj_iff.mp heq).symm

/-- Thread `i` gets the processor at `place k p i`. -/
theorem Even.threadProcessor_eq (h : Even cpus k p) (hk : 0 < k) (hp : 0 < p) (i : Nat) :
    ∃ c x, (cpus.take k)[(place k p i).1]? = some c ∧ c.procs[(place k p i).2]? = some x ∧
      threadProcessor ⟨some cpus, k⟩ i = some x := by
  have hcol : i % k < (cpus.take k).length := by
    rw [List.length_take_of_le h.cores]
    exact Nat.mod_lt i hk
  obtain ⟨c, hc⟩ : ∃ c, (cpus.take k)[i % k]? = some c := ⟨_, List.getElem?_eq_getElem hcol⟩
  have hmem := List.mem_of_getElem? hc
  obtain ⟨hproc, hlen⟩ := h.procs c hmem
  have hrow : i / k % p < c.procs.length := by
    rw [hlen]
    exact Nat.mod_lt _ hp
  obtain ⟨x, hx⟩ : ∃ x, c.procs[i / k % p]? = some x := ⟨_, List.getElem?_eq_getElem hrow⟩
  refine ⟨c, x, hc, hx, ?_⟩
  have hcpu : cpus[i % k]? = some c := (getElem?_of_take hc).2
  cases hblock : c.processors with
  | none => exact absurd hx (by simp [Cpu.procs, hblock])
  | some block =>
    have hread : block[i / k % p]? = some x := by
      rw [Cpu.procs, hblock] at hx
      exact (getElem?_of_take hx).2
    simp [threadProcessor, threadCpu, divMod, hk.ne', hcpu, hproc, hp.ne', hblock, hread]

/-- A count over the threads. -/
theorem count_map_range (f : Nat → Int) (size : Nat) (x : Int) :
    ((List.range size).map fun i => [f i]).count [x] = size.count fun i => f i = x := by
  rw [Nat.count_eq_card_filter_range, List.count_eq_countP, List.countP_map,
    List.countP_eq_length_filter]
  simp [Finset.card, Finset.filter, Multiset.range, Function.comp_def]
  rfl

end

section

variable {cpus : List Cpu} {k p i j : Nat} {c : Cpu} {x y : Int} {f : Nat → Int}

theorem Even.cell (h : Even cpus k p) (hk : 0 < k) (hp : 0 < p)
    (hf : ∀ i, threadProcessor ⟨some cpus, k⟩ i = some (f i)) (i : Nat) :
    ∃ c, (cpus.take k)[(place k p i).1]? = some c ∧ c.procs[(place k p i).2]? = some (f i) := by
  obtain ⟨c, x, hc, hx, hthread⟩ := h.threadProcessor_eq hk hp i
  obtain rfl := Option.some.inj ((hf i).symm.trans hthread)
  exact ⟨c, hc, hx⟩

/-- Threads share a processor when they share a place. -/
theorem Even.processor_eq_iff (h : Even cpus k p) (hk : 0 < k) (hp : 0 < p)
    (hf : ∀ i, threadProcessor ⟨some cpus, k⟩ i = some (f i)) :
    f i = f j ↔ place k p i = place k p j := by
  obtain ⟨c, hc, hx⟩ := h.cell hk hp hf i
  obtain ⟨c', hc', hx'⟩ := h.cell hk hp hf j
  constructor
  · intro heq
    rw [heq] at hx
    obtain ⟨hcol, hrow⟩ := h.place_eq hc hc' hx hx'
    exact Prod.ext hcol hrow
  · intro heq
    rw [heq] at hc hx
    obtain rfl := Option.some.inj (hc.symm.trans hc')
    exact Option.some.inj (hx.symm.trans hx')

/-- The column of a thread is its core. -/
theorem Even.column_eq (h : Even cpus k p) (hk : 0 < k) (hp : 0 < p)
    (hf : ∀ i, threadProcessor ⟨some cpus, k⟩ i = some (f i)) {m : Nat}
    (hm : (cpus.take k)[m]? = some c) (hmem : f i ∈ c.procs) : i % k = m := by
  obtain ⟨n, hn⟩ := List.mem_iff_getElem?.mp hmem
  obtain ⟨c', hc', hx⟩ := h.cell hk hp hf i
  exact (h.place_eq hc' hm hx hn).1

/-- A processor of the machine has a thread in the first round. -/
theorem Even.exists_thread (h : Even cpus k p) (hk : 0 < k) (hp : 0 < p)
    (hf : ∀ i, threadProcessor ⟨some cpus, k⟩ i = some (f i)) (hc : c ∈ cpus.take k)
    (hx : x ∈ c.procs) : ∃ i, f i = x := by
  obtain ⟨m, hm⟩ := List.mem_iff_getElem?.mp hc
  obtain ⟨n, hn⟩ := List.mem_iff_getElem?.mp hx
  have hmk := (List.getElem?_eq_some_iff.mp hm).1
  have hnp := (List.getElem?_eq_some_iff.mp hn).1
  rw [List.length_take_of_le h.cores] at hmk
  rw [(h.procs c hc).2] at hnp
  obtain ⟨c', hc', hx'⟩ := h.cell hk hp hf (n * k + m)
  rw [place_mul_add hmk hnp] at hc' hx'
  obtain rfl := Option.some.inj (hm.symm.trans hc')
  exact ⟨n * k + m, Option.some.inj (hx'.symm.trans hn)⟩

theorem Even.balanced (h : Even cpus k p) (hk : 0 < k) (hp : 0 < p)
    (hf : ∀ i, threadProcessor ⟨some cpus, k⟩ i = some (f i)) (size : Nat) :
    Balanced cpus k p ((List.range size).map fun i => [f i]) := by
  refine ⟨?_, ?_, ?_, ?_⟩
  · intro s hs
    obtain ⟨i, -, rfl⟩ := List.mem_map.mp hs
    obtain ⟨c, hc, hx⟩ := h.cell hk hp hf i
    exact ⟨c, List.mem_of_getElem? hc, f i, List.mem_of_getElem? hx, rfl⟩
  · intro hle
    rw [List.length_map, List.length_range] at hle
    refine List.Nodup.map_on (fun i hi j hj heq => ?_) List.nodup_range
    rw [List.mem_range] at hi hj
    have hsame : f i = f j := List.singleton_injective heq
    exact place_inj (by omega) (by omega) ((h.processor_eq_iff hk hp hf).mp hsame)
  · intro i j hi hj c hc x hx y hy hsi hsj
    rw [List.length_map, List.length_range, Nat.lt_min] at hi hj
    rw [List.getElem?_map, List.getElem?_range hi.1, Option.map_some, Option.some.injEq] at hsi
    rw [List.getElem?_map, List.getElem?_range hj.1, Option.map_some, Option.some.injEq] at hsj
    obtain rfl : f i = x := List.singleton_injective hsi
    obtain rfl : f j = y := List.singleton_injective hsj
    -- both are in one column, and the first `k` have columns of their own
    obtain ⟨m, hm⟩ := List.mem_iff_getElem?.mp hc
    have hcoli := h.column_eq hk hp hf hm hx
    have hcolj := h.column_eq hk hp hf hm hy
    rw [Nat.mod_eq_of_lt hi.2] at hcoli
    rw [Nat.mod_eq_of_lt hj.2] at hcolj
    omega
  · intro c hc x hx
    obtain ⟨i, rfl⟩ := h.exists_thread hk hp hf hc hx
    rw [List.length_map, List.length_range, count_map_range]
    simp only [h.processor_eq_iff hk hp hf]
    exact count_place_cases hk hp size i

end

/-- **Even pinning.** Unless a set is refused, the threads are spread over the processors as evenly
    as they can be. `set_attrs` is a round robin over the cores first and then over the processors
    of each, so on an even machine thread `i` and thread `i + k * p` share a processor, and none
    before. -/
theorem threads_pinned_evenly (accepts : Nat → Bool) {cpus : List Cpu} {k p size : Nat}
    {attrs : List Attr} (hk : 1 ≤ k) (hp : 1 ≤ p) (h : Even cpus k p)
    (hlen : size ≤ attrs.length) :
    ∃ check attrs', setAttrs accepts ⟨some cpus, k⟩ attrs size = some (check, attrs') ∧
      (check = 0 ↔ ∀ i < size, accepts i = true) ∧
      (check = 0 → ((attrs'.take size).map Attr.affinity).length = size ∧
        Balanced cpus k p ((attrs'.take size).map Attr.affinity)) := by
  have hthread : ∀ i, ∃ x, threadProcessor ⟨some cpus, k⟩ i = some x := by
    intro i
    obtain ⟨c, x, -, -, hx⟩ := h.threadProcessor_eq hk hp i
    exact ⟨x, hx⟩
  choose f hf using hthread
  obtain ⟨check, attrs', hset, hcheck, hsets⟩ := @setAttrs_eq accepts _ f attrs size hlen
    fun i _ => hf i
  refine ⟨check, attrs', hset, hcheck, fun hzero => ?_⟩
  rw [hsets hzero]
  exact ⟨by simp, h.balanced hk hp hf size⟩

/-- Two cores with two processors each, and five threads. -/
theorem threads_pinned_evenly_four : ∃ check attrs',
    setAttrs (fun _ => true) ⟨some [⟨some [0, 2], 2, 2⟩, ⟨some [1, 3], 2, 2⟩], 2⟩
      (List.replicate 5 ⟨[]⟩) 5 = some (check, attrs') ∧
    (check = 0 ↔ ∀ i < 5, (fun _ => true) i = true) ∧
    (check = 0 → ((attrs'.take 5).map Attr.affinity).length = 5 ∧
      Balanced [⟨some [0, 2], 2, 2⟩, ⟨some [1, 3], 2, 2⟩] 2 2
        ((attrs'.take 5).map Attr.affinity)) :=
  threads_pinned_evenly (fun _ => true) (by decide) (by decide)
    ⟨by decide, by decide, by decide⟩ (by decide)

/-! ## The divisors -/

/-- What thread `i` is divided by. -/
def DivisorsNonzero (info : CpuInfo) (i : Nat) : Prop :=
  info.nCpu ≠ 0 ∧
    ∃ cpus cpu, info.cpus = some cpus ∧ cpus[i % info.nCpu]? = some cpu ∧ cpu.nProc ≠ 0

/-- **No division by zero** as long as the query printed something: with no ids there are no groups,
    and the block of `calloc (0, ..)` passes for an array. An empty output is what a query leaves
    that has failed. -/
theorem divisors_nonzero_iff {mem : Memory} {output : List Char} {cpus : List Cpu}
    {nCpu size : Nat} (h : getMycpuInfo mem output = some ⟨some cpus, nCpu⟩) (hsize : 1 ≤ size) :
    (∀ i < size, DivisorsNonzero ⟨some cpus, nCpu⟩ i) ↔ output ≠ [] := by
  obtain ⟨ids, hread, hgroup⟩ := Option.bind_eq_some_iff.mp h
  obtain ⟨hzero, hproc⟩ := groups_nonempty hgroup
  have hnil : nCpu = 0 ↔ output = [] := hzero.trans (readCoreIds_eq_nil hread)
  constructor
  · intro hall hout
    exact (hall 0 hsize).1 (hnil.mpr hout)
  · intro hout i _
    have hpos : nCpu ≠ 0 := fun h => hout (hnil.mp h)
    obtain ⟨c, hc, hone⟩ := hproc (i % nCpu) (Nat.mod_lt i (by omega))
    exact ⟨hpos, cpus, c, rfl, hc, by omega⟩

/-- One line. -/
theorem divisors_nonzero_line :
    (∀ i < 4, DivisorsNonzero ⟨some [⟨some [0], 1, 0⟩], 1⟩ i) ↔ "core id\t\t: 0\n".toList ≠ [] :=
  @divisors_nonzero_iff (.plenty (fun _ => zeroCpu) (fun _ => 0)) "core id\t\t: 0\n".toList _ _ 4
    (by decide) (by decide)

/-- No line at all. -/
theorem divisors_empty_output : ¬ ∀ (mem : Memory) (output : List Char) (cpus : List Cpu)
    (nCpu size : Nat), getMycpuInfo mem output = some ⟨some cpus, nCpu⟩ → 1 ≤ size →
    ∀ i < size, DivisorsNonzero ⟨some cpus, nCpu⟩ i := by
  intro hall
  exact (hall (.plenty (fun _ => zeroCpu) (fun _ => 0)) [] [] 0 1 rfl (le_refl 1) 0
    Nat.one_pos).1 rfl

end CompTech.Network
