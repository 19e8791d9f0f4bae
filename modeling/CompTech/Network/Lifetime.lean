import CompTech.Lib.Run
import CompTech.Network.Slices

/-!
# The threads of `Integrate` and the block they store into

`Integrate` starts one thread for each record, `max(n_threads, n_cpus)` of them, and every thread
stores its `res` into its record; all records are one block, which `free (infosp[0])` gives back.
The machine below has two kinds of steps: the next one of `Integrate`, and a started thread
running to its end, in any order. What the calls answer is fixed in `Calls`; the theorems
quantify over it.

A thread may only be outlived by the block if it is joined before. The joining loop runs to
`n_threads`, not to the number of threads that were started, and the error exits do not join at
all; `joinedAtFree_iff` says exactly when that does not matter.

The result is an equivalence. In one direction the condition is carried along the run by an
invariant. In the other, where it fails, a run is built up to the `free` in which one created thread
has not moved at all.
-/

namespace CompTech.Network

variable {φ : Type}

/-! ## Integrate -/

/-- What the calls of `Integrate` answer. -/
structure Calls where
  cpuInfo : Bool
  threads : Bool
  infosp : Bool
  attrs : Bool
  attrInit : Nat → Bool
  setAttrs : Bool
  create : Nat → Bool
  join : Nat → Bool

/-- A thread that was created. -/
inductive Thread
  | running
  | ended
  | joined
  deriving DecidableEq, Repr

/-- Where `Integrate` stands. -/
inductive IntegratePc
  -- before `pthread_create` number `i`
  | creating (i : Nat)
  -- before `pthread_join` number `i`
  | joining (i : Nat)
  -- before `free (infosp[0])`
  | freeing
  | returned
  deriving DecidableEq, Repr

/-- `Integrate` and its threads. -/
structure IntegrateState (φ : Type) where
  pc : IntegratePc
  error : Error
  -- those that were created, in their order
  threads : List Thread
  -- the block of records; `none` when there is none, or none any more
  infosp : Option (List (ThreadInfo φ))
  -- the sum so far
  res : ℚ
  -- `*result`, once it is written
  result : Option ℚ

/-- `n_thread_create`: a thread for every processor at least. -/
def nThreadCreate (m : Machine φ) (nThreads : Int) : Int :=
  if nThreads > m.nCpus then nThreads else m.nCpus

/-- Everything in front of the creating loop. -/
def integrateStart (w : Calls) (m : Machine φ) (nThreads : Int) (begin_ end_ : ℚ) (foo : φ) :
    Option (IntegrateState φ) :=
  if nThreads = 0 then some ⟨.returned, .eInval, [], none, 0, none⟩
  else if w.cpuInfo = false then some ⟨.returned, .eMem, [], none, 0, none⟩
  else if w.threads = false then some ⟨.returned, .eMem, [], none, 0, none⟩
  else if w.infosp = false then some ⟨.returned, .eMem, [], none, 0, none⟩
  else do
    let (check, infosp) ← integrateInfos m nThreads begin_ end_ foo
    -- this exit skips `free (infosp[0])`: the block is left behind
    if check ≠ 0 then some ⟨.returned, .eInval, [], infosp, 0, none⟩
    else if w.attrs = false then some ⟨.freeing, .eMem, [], infosp, 0, none⟩
    else if (List.range (nThreadCreate m nThreads).toNat).any (!w.attrInit ·) then
      some ⟨.freeing, .eThread, [], infosp, 0, none⟩
    else if nThreads ≤ nThreadCreate m nThreads ∧ w.setAttrs = false then
      some ⟨.freeing, .eThread, [], infosp, 0, none⟩
    else some ⟨.creating 0, .success, [], infosp, 0, none⟩

/-- The next step of `Integrate`; `none` while `pthread_join` waits for its thread. -/
def integrateMain (w : Calls) (n create : Int) (s : IntegrateState φ) :
    Option (IntegrateState φ) :=
  match s.pc with
  | .creating i =>
    if (i : Int) < create then
      if w.create i then
        some { s with pc := .creating (i + 1), threads := s.threads ++ [.running] }
      else some { s with pc := .freeing, error := .eThread }
    else some { s with pc := .joining 0 }
  | .joining i =>
    if (i : Int) < n then
      if w.join i then
        if s.threads[i]? = some .ended then do
          let infosp ← s.infosp
          let info ← infosp[i]?
          return { s with
            pc := .joining (i + 1), threads := s.threads.set i .joined, res := s.res + info.res }
        else none
      else some { s with pc := .freeing, error := .eThread }
    else some { s with pc := .freeing, result := some s.res }
  | .freeing => some { s with pc := .returned, infosp := none }
  | .returned => none

/-- `start_routine` of thread `i`; `integral` is what `CalcIntegral` makes of a record. A store into
    a block that is freed is lost here, and anything else in the program. -/
def startRoutine (integral : ThreadInfo φ → ℚ) (s : IntegrateState φ) (i : Nat) :
    Option (IntegrateState φ) :=
  if s.threads[i]? = some .running then
    some { s with
      threads := s.threads.set i .ended
      infosp := s.infosp.map fun l => l.modify i fun t => { t with res := integral t } }
  else none

/-- Who takes the next step. -/
inductive IntegrateAct
  | main
  | thread (i : Nat)
  deriving DecidableEq, Repr

/-- The step of one of them. -/
def integrateStep (integral : ThreadInfo φ → ℚ) (w : Calls) (n create : Int)
    (s : IntegrateState φ) : IntegrateAct → Option (IntegrateState φ)
  | .main => integrateMain w n create s
  | .thread i => startRoutine integral s i

/-- A run of `Integrate` and its threads. -/
def IntegrateRun (integral : ThreadInfo φ → ℚ) (w : Calls) (m : Machine φ) (n : Int) :
    IntegrateState φ → List IntegrateAct → IntegrateState φ → Prop :=
  Lib.Run (integrateStep integral w n (nThreadCreate m n)) Lib.Always

/-! ## What a started thread may still do -/

/-- Where `Integrate` frees the block every thread it created is joined, and where the block is
    gone no thread is left to store into it. -/
structure IntegrateState.Joined (s : IntegrateState φ) : Prop where
  atFree : s.pc = .freeing → ∀ t ∈ s.threads, t = .joined
  after : s.infosp = none → ∀ t ∈ s.threads, t ≠ .running

/-- Either no thread is ever created, or all of them are, they are no more than the joining loop
    goes through, and no join fails. -/
def Calls.AllJoined (w : Calls) (n nCpus : Int) : Prop :=
  w.create 0 = false ∨ (∀ i : Nat, (i : Int) < max n nCpus → w.create i = true) ∧
    (∀ i : Nat, (i : Int) < n → w.join i = true) ∧ nCpus ≤ n

/-- The calls in front of the creating loop succeed. -/
def Calls.Enters (w : Calls) (create : Int) : Prop :=
  w.cpuInfo = true ∧ w.threads = true ∧ w.infosp = true ∧ w.attrs = true ∧
    (∀ i : Nat, (i : Int) < create → w.attrInit i = true) ∧ w.setAttrs = true

theorem nThreadCreate_eq (m : Machine φ) (n : Int) : nThreadCreate m n = max n m.nCpus := by
  unfold nThreadCreate
  split <;> omega

section Runs

variable {integral : ThreadInfo φ → ℚ} {w : Calls} {m : Machine φ} {n : Int} {b e : ℚ} {foo : φ}
  {s t : IntegrateState φ}

/-! ## Where every thread is joined -/

/-- What holds where `Integrate` is, when the condition is met. -/
def IntegrateState.AtPc (w : Calls) (create : Int) (s : IntegrateState φ) : Prop :=
  match s.pc with
  | .creating i => s.threads.length = i ∧ (i : Int) ≤ create ∧ (0 < i → w.create 0 = true) ∧
      s.infosp.isSome
  | .joining i => (s.threads.length : Int) = create ∧ w.create 0 = true ∧
      (∀ j, j < i → s.threads[j]? = some .joined) ∧ s.infosp.isSome
  | .freeing | .returned => ∀ t ∈ s.threads, t = .joined

theorem AtPc.joined {create : Int} (hs : s.AtPc w create) : s.Joined := by
  unfold IntegrateState.AtPc at hs
  constructor
  · intro hpc
    rw [hpc] at hs
    exact hs
  · intro hnone t ht
    cases hpc : s.pc with
    | creating i =>
      rw [hpc] at hs
      simp [hnone] at hs
    | joining i =>
      rw [hpc] at hs
      simp [hnone] at hs
    | freeing | returned =>
      rw [hpc] at hs
      rw [hs t ht]
      exact Thread.noConfusion

/-- A step of `Integrate`. The two failures that would leave a thread unjoined are excluded. -/
theorem AtPc.main (hn : 1 ≤ n) (hw : w.AllJoined n m.nCpus)
    (hs : s.AtPc w (nThreadCreate m n)) (ht : integrateMain w n (nThreadCreate m n) s = some t) :
    t.AtPc w (nThreadCreate m n) := by
  have hcreate := nThreadCreate_eq m n
  obtain ⟨pc, err, threads, infosp, res, result⟩ := s
  unfold IntegrateState.AtPc at hs
  cases pc with
  | creating i =>
    obtain ⟨hlen, hle, hfirst, hblock⟩ := hs
    simp only [integrateMain] at ht
    split at ht
    · rename_i hlt
      split at ht
      · rename_i hok
        cases ht
        refine ⟨by simp [hlen], by push_cast; omega, fun _ => ?_, hblock⟩
        rcases Nat.eq_zero_or_pos i with rfl | hpos
        · exact hok
        · exact hfirst hpos
      · rename_i hfail
        cases ht
        intro x hx
        rcases Nat.eq_zero_or_pos i with rfl | hpos
        · rw [List.length_eq_zero_iff.mp hlen] at hx
          cases hx
        · -- one thread exists already, so no create may fail
          rcases hw with hnone | ⟨hall, -, -⟩
          · rw [hfirst hpos] at hnone
            cases hnone
          · exact absurd (hall i (by omega)) hfail
    · cases ht
      exact ⟨by simp only [hlen]; omega, hfirst (by omega), fun j hj => by omega, hblock⟩
  | joining i =>
    obtain ⟨hlen, hfirst, hjoined, hblock⟩ := hs
    rcases hw with hnone | ⟨-, hjoin, hcpus⟩
    · rw [hfirst] at hnone
      cases hnone
    simp only [integrateMain] at ht
    split at ht
    · rename_i hlt
      rw [if_pos (hjoin i hlt)] at ht
      split at ht
      · rename_i hended
        obtain ⟨l, hl, ht⟩ := Option.bind_eq_some_iff.mp ht
        obtain ⟨info, -, ht⟩ := Option.bind_eq_some_iff.mp ht
        cases ht
        refine ⟨by simpa using hlen, hfirst, fun j hj => ?_, hblock⟩
        have hin : i < threads.length := (List.getElem?_eq_some_iff.mp hended).1
        rcases Nat.lt_succ_iff_lt_or_eq.mp hj with hlt | rfl
        · show (threads.set i .joined)[j]? = _
          rw [List.getElem?_set_ne (by omega)]
          exact hjoined j hlt
        · exact List.getElem?_set_self hin
      · cases ht
    · cases ht
      intro x hx
      obtain ⟨j, hj, rfl⟩ := List.getElem_of_mem hx
      replace hj : j < threads.length := hj
      -- as many are joined as were created, since there are no more processors than threads
      have hget : threads[j]? = some .joined := hjoined j (by dsimp only at hlen; omega)
      rwa [List.getElem?_eq_getElem hj, Option.some.injEq] at hget
  | freeing =>
    cases ht
    exact hs
  | returned => cases ht

/-- A thread that ends was running: nothing is said of running threads. -/
theorem AtPc.thread {i : Nat} {create : Int} (hs : s.AtPc w create)
    (ht : startRoutine integral s i = some t) : t.AtPc w create := by
  unfold startRoutine at ht
  split at ht
  · rename_i hrun
    cases ht
    have hin : i < s.threads.length := (List.getElem?_eq_some_iff.mp hrun).1
    have hmem : Thread.running ∈ s.threads := List.mem_of_getElem? hrun
    unfold IntegrateState.AtPc at hs ⊢
    dsimp only
    cases hpc : s.pc with
    | creating j =>
      rw [hpc] at hs
      simpa using hs
    | joining j =>
      rw [hpc] at hs
      obtain ⟨hlen, hfirst, hjoined, hblock⟩ := hs
      refine ⟨by simpa using hlen, hfirst, fun k hk => ?_, by simpa using hblock⟩
      have hne : i ≠ k := by
        rintro rfl
        rw [hjoined i hk] at hrun
        cases hrun
      rw [List.getElem?_set_ne hne]
      exact hjoined k hk
    | freeing | returned =>
      rw [hpc] at hs
      exact absurd (hs _ hmem) (by decide)
  · cases ht

theorem AtPc.run {create : Int} {es : List IntegrateAct} (hn : 1 ≤ n)
    (hc : create = nThreadCreate m n) (hw : w.AllJoined n m.nCpus) (hs : s.AtPc w create)
    (hr : IntegrateRun integral w m n s es t) : t.AtPc w create := by
  subst hc
  refine hr.invariant hs fun s act t hs _ ht => ?_
  cases act with
  | main => exact AtPc.main hn hw hs ht
  | thread i => exact AtPc.thread hs ht

/-! ## The start -/

/-- The records are there: `fill_thread_info` finds room for the slices and the surplus. -/
theorem integrateInfos_eq (m : Machine φ) (b e : ℚ) (foo : φ) (hn : 1 ≤ n) : ∃ l,
    integrateInfos m n b e foo = some (0, some l) ∧ (l.length : Int) = nThreadCreate m n := by
  have hcreate := nThreadCreate_eq m n
  have hlen : (buildThreadInfo m (nThreadCreate m n)).length = (nThreadCreate m n).toNat := by
    simp [buildThreadInfo]
  obtain ⟨k, rfl⟩ : ∃ k : Nat, n = k := ⟨n.toNat, by omega⟩
  have hfill := fillThreadInfo_eq (buildThreadInfo m (nThreadCreate m k))
    { begin_ := b, end_ := e, res := 0, foo := foo } (n := k) (by omega) (by omega)
  rw [hlen, Int.toNat_of_nonneg (by omega)] at hfill
  refine ⟨_, hfill, ?_⟩
  rw [List.length_mapIdx, hlen]
  omega

/-- The state in which the creating loop starts. -/
def IntegrateState.Fresh (create : Int) (s : IntegrateState φ) : Prop :=
  s.pc = .creating 0 ∧ s.threads = [] ∧ ∃ l, s.infosp = some l ∧ (l.length : Int) = create

/-- `Integrate` reaches the creating loop, or it never creates a thread. -/
theorem integrateStart_cases (w : Calls) (m : Machine φ) (b e : ℚ) (foo : φ) (hn : 1 ≤ n) :
    ∃ s, integrateStart w m n b e foo = some s ∧
    (w.Enters (nThreadCreate m n) ∧ s.Fresh (nThreadCreate m n) ∨
      ¬w.Enters (nThreadCreate m n) ∧ (s.pc = .freeing ∨ s.pc = .returned) ∧ s.threads = []) := by
  obtain ⟨l, hl, hlen⟩ := integrateInfos_eq m b e foo hn
  have hle : n ≤ nThreadCreate m n := by
    rw [nThreadCreate_eq]
    exact Int.le_max_left _ _
  unfold integrateStart
  rw [if_neg (by omega)]
  split
  · exact ⟨_, rfl, .inr ⟨fun h => by simp_all [Calls.Enters], .inr rfl, rfl⟩⟩
  split
  · exact ⟨_, rfl, .inr ⟨fun h => by simp_all [Calls.Enters], .inr rfl, rfl⟩⟩
  split
  · exact ⟨_, rfl, .inr ⟨fun h => by simp_all [Calls.Enters], .inr rfl, rfl⟩⟩
  rw [hl, Option.bind_eq_bind, Option.bind_some]
  dsimp only
  rw [if_neg (by simp)]
  split
  · exact ⟨_, rfl, .inr ⟨fun h => by simp_all [Calls.Enters], .inl rfl, rfl⟩⟩
  split
  · rename_i hany
    refine ⟨_, rfl, .inr ⟨fun h => ?_, .inl rfl, rfl⟩⟩
    obtain ⟨i, hi, hfail⟩ := List.any_eq_true.mp hany
    rw [h.2.2.2.2.1 i (by have := List.mem_range.mp hi; omega)] at hfail
    cases hfail
  split
  · exact ⟨_, rfl, .inr ⟨fun h => by simp_all [Calls.Enters], .inl rfl, rfl⟩⟩
  · rename_i hcpu hthreads hinfosp hattrs hany hset
    refine ⟨_, rfl, .inl ⟨⟨by simpa using hcpu, by simpa using hthreads, by simpa using hinfosp,
      by simpa using hattrs, fun i hi => ?_, by simpa [hle] using hset⟩, rfl, rfl, l, rfl, hlen⟩⟩
    -- an attribute that is not initialised would have been found
    by_contra hfail
    exact hany (List.any_eq_true.mpr ⟨i, List.mem_range.mpr (by omega), by simpa using hfail⟩)

/-! ## Where one is not -/

theorem IntegrateRun.main {u : IntegrateState φ} {es : List IntegrateAct}
    (hr : IntegrateRun integral w m n s es t)
    (ht : integrateMain w n (nThreadCreate m n) t = some u) :
    IntegrateRun integral w m n s (es ++ [.main]) u :=
  .snoc hr trivial ht

theorem IntegrateRun.thread {u : IntegrateState φ} {es : List IntegrateAct} {i : Nat}
    (hr : IntegrateRun integral w m n s es t) (ht : startRoutine integral t i = some u) :
    IntegrateRun integral w m n s (es ++ [.thread i]) u :=
  .snoc hr trivial ht

/-- The creating loop, before any thread has run. -/
theorem run_creating (integral : ThreadInfo φ → ℚ) (hs : s.Fresh (nThreadCreate m n)) {k : Nat}
    (hk : (k : Int) ≤ nThreadCreate m n) (hok : ∀ j, j < k → w.create j = true) :
    ∃ es t, IntegrateRun integral w m n s es t ∧ t.pc = .creating k ∧
      t.threads = List.replicate k .running ∧ t.infosp = s.infosp := by
  induction k with
  | zero => exact ⟨[], s, .nil, hs.1, hs.2.1, rfl⟩
  | succ k ih =>
    obtain ⟨es, t, hr, hpc, hthreads, hblock⟩ := ih (by omega) fun j hj => hok j (by omega)
    refine ⟨_, _, hr.main (u := { t with
      pc := .creating (k + 1), threads := t.threads ++ [.running] }) ?_, rfl, ?_, hblock⟩
    · simp only [integrateMain, hpc]
      rw [if_pos (by omega), if_pos (hok k (by omega))]
    · show t.threads ++ [.running] = _
      rw [hthreads, ← List.replicate_succ']

/-- The joining loop has joined the first `k` threads; the rest are still running. -/
structure IntegrateState.JoinedTo (create : Int) (k : Nat) (s : IntegrateState φ) : Prop where
  pc : s.pc = .joining k
  rest : ∀ j : Nat, k ≤ j → (j : Int) < create → s.threads[j]? = some .running
  block : ∃ l, s.infosp = some l ∧ (l.length : Int) = create

/-- Each thread ends just before it is joined. -/
theorem run_joining (integral : ThreadInfo φ → ℚ) (hn : 1 ≤ n) (hs : s.Fresh (nThreadCreate m n))
    (hok : ∀ i : Nat, (i : Int) < nThreadCreate m n → w.create i = true) {k : Nat}
    (hk : (k : Int) ≤ n) (hjoin : ∀ j, j < k → w.join j = true) :
    ∃ es t, IntegrateRun integral w m n s es t ∧ t.JoinedTo (nThreadCreate m n) k := by
  have hcreate := nThreadCreate_eq m n
  induction k with
  | zero =>
    obtain ⟨c, hc⟩ : ∃ c : Nat, nThreadCreate m n = c := ⟨(nThreadCreate m n).toNat, by omega⟩
    obtain ⟨es, t, hr, hpc, hthreads, hblock⟩ := run_creating (k := c) integral hs
      (by omega) fun j hj => hok j (by omega)
    refine ⟨_, { t with pc := .joining 0 }, hr.main ?_, rfl, fun j _ hj => ?_, ?_⟩
    · simp only [integrateMain, hpc]
      rw [if_neg (by omega)]
    · show t.threads[j]? = _
      rw [hthreads, List.getElem?_replicate_of_lt (by omega)]
    · obtain ⟨-, -, l, hl, hlen⟩ := hs
      exact ⟨l, hblock.trans hl, hlen⟩
  | succ k ih =>
    obtain ⟨es, t, hr, ⟨hpc, hrest, l, hl, hlen⟩⟩ := ih (by omega) fun j hj => hjoin j (by omega)
    have hrun := hrest k (Nat.le_refl k) (by omega)
    have hin : k < t.threads.length := (List.getElem?_eq_some_iff.mp hrun).1
    have hl' : k < l.length := by omega
    -- first thread `k` runs to its end, then `Integrate` joins it
    have hend : startRoutine integral t k = some { t with
        threads := t.threads.set k .ended
        infosp := some (l.modify k fun x => { x with res := integral x }) } := by
      rw [startRoutine, if_pos hrun, hl, Option.map_some]
    refine ⟨_, _, (hr.thread hend).main (u := { t with
      pc := .joining (k + 1)
      threads := (t.threads.set k .ended).set k .joined
      infosp := some (l.modify k fun x => { x with res := integral x })
      res := t.res + integral l[k] }) ?_, rfl, fun j hj hlt => ?_, _, rfl, ?_⟩
    · simp only [integrateMain, hpc]
      rw [if_pos (by omega), if_pos (hjoin k (by omega)),
        if_pos (List.getElem?_set_self hin), Option.bind_eq_bind, Option.bind_some,
        List.getElem?_modify_eq, List.getElem?_eq_getElem hl']
      rfl
    · show ((t.threads.set k .ended).set k .joined)[j]? = _
      rw [List.getElem?_set_ne (by omega), List.getElem?_set_ne (by omega)]
      exact hrest j (by omega) hlt
    · rw [List.length_modify]
      exact hlen

/-- The first index at which `p` fails. -/
theorem exists_least {p : Nat → Bool} {c : Int} (h : ¬∀ i : Nat, (i : Int) < c → p i = true) :
    ∃ k : Nat, (k : Int) < c ∧ p k = false ∧ ∀ j, j < k → p j = true := by
  have hex : ∃ i : Nat, (i : Int) < c ∧ p i = false := by
    by_contra hnone
    exact h fun i hi => by_contra fun hfail => hnone ⟨i, hi, by simpa using hfail⟩
  classical
  obtain ⟨hlt, hfail⟩ := Nat.find_spec hex
  refine ⟨Nat.find hex, hlt, hfail, fun j hj => ?_⟩
  by_contra hj'
  exact Nat.find_min hex hj ⟨by omega, by simpa using hj'⟩

/-- Where the condition is not met some schedule has `Integrate` free the block under a thread
    that is still running. -/
theorem exists_unjoined (integral : ThreadInfo φ → ℚ) (hn : 1 ≤ n)
    (hs : s.Fresh (nThreadCreate m n)) (hw : ¬w.AllJoined n m.nCpus) :
    ∃ es t, IntegrateRun integral w m n s es t ∧
      t.pc = .freeing ∧ Thread.running ∈ t.threads := by
  have hcreate := nThreadCreate_eq m n
  obtain ⟨hfirst, hrest⟩ := not_or.mp hw
  rw [← hcreate] at hrest
  by_cases hall : ∀ i : Nat, (i : Int) < nThreadCreate m n → w.create i = true
  · -- all are created: a join fails, or the loop ends before the last thread
    suffices h : ∃ k : Nat, (k : Int) ≤ n ∧ (k : Int) < nThreadCreate m n ∧
        (∀ j, j < k → w.join j = true) ∧ ((k : Int) < n → w.join k = false) by
      obtain ⟨k, hk, hlt, hjoin, hstop⟩ := h
      obtain ⟨es, t, hr, ⟨hpc, hrest, -⟩⟩ := run_joining integral hn hs hall hk hjoin
      have hmem : Thread.running ∈ t.threads :=
        List.mem_of_getElem? (hrest k (Nat.le_refl k) hlt)
      by_cases hkn : (k : Int) < n
      · refine ⟨_, { t with pc := .freeing, error := .eThread }, hr.main ?_, rfl, hmem⟩
        simp only [integrateMain, hpc]
        rw [if_pos hkn, hstop hkn, if_neg Bool.false_ne_true]
      · refine ⟨_, { t with pc := .freeing, result := some t.res }, hr.main ?_, rfl, hmem⟩
        simp only [integrateMain, hpc]
        rw [if_neg hkn]
    -- a join that fails stops the loop early; if none does, there are more processors than threads
    by_cases hjoin : ∀ i : Nat, (i : Int) < n → w.join i = true
    · have hcpus : ¬m.nCpus ≤ n := fun hle => hrest ⟨hall, hjoin, hle⟩
      obtain ⟨k, rfl⟩ : ∃ k : Nat, n = k := ⟨n.toNat, by omega⟩
      exact ⟨k, Int.le_refl _, by omega, fun j hj => hjoin j (by omega), fun h => by omega⟩
    · obtain ⟨k, hlt, hfail, hbefore⟩ := exists_least hjoin
      exact ⟨k, by omega, by omega, hbefore, fun _ => hfail⟩
  · -- a create fails after the first
    obtain ⟨k, hlt, hfail, hbefore⟩ := exists_least hall
    obtain ⟨es, t, hr, hpc, hthreads, -⟩ :=
      run_creating integral hs (Int.le_of_lt hlt) hbefore
    refine ⟨_, { t with pc := .freeing, error := .eThread }, hr.main ?_, rfl, ?_⟩
    · simp only [integrateMain, hpc]
      rw [if_pos hlt, hfail, if_neg Bool.false_ne_true]
    · show Thread.running ∈ t.threads
      rw [hthreads, List.mem_replicate]
      refine ⟨?_, rfl⟩
      rintro rfl
      exact hfirst hfail

/-- An exit in front of the creating loop. -/
def IntegrateState.NoThreads (s : IntegrateState φ) : Prop :=
  s.threads = [] ∧ (s.pc = .freeing ∨ s.pc = .returned)

/-- Nobody is left to do anything but `Integrate`, which frees and returns. -/
theorem NoThreads.run {es : List IntegrateAct} (hs : s.NoThreads)
    (hr : IntegrateRun integral w m n s es t) : t.NoThreads := by
  refine hr.invariant hs fun t act u ht _ hu => ?_
  cases act with
  | main =>
    rcases ht.2 with hpc | hpc
    · simp only [integrateStep, integrateMain, hpc] at hu
      cases hu
      exact ⟨ht.1, .inr rfl⟩
    · simp only [integrateStep, integrateMain, hpc] at hu
      cases hu
  | thread i => simp [integrateStep, startRoutine, ht.1] at hu

/-- **The threads of `Integrate`.** Whatever the calls answer, every schedule has all threads joined
    where the block is freed, and none left to store into it afterwards, if and only if the creating
    loop is not reached or every thread it creates is joined by the joining loop. The joining loop
    runs to `n_threads` and the creating loop to `n_thread_create`; a `pthread_create` or
    `pthread_join` that fails leads past the joins altogether. -/
theorem joinedAtFree_iff (integral : ThreadInfo φ → ℚ) (w : Calls) (m : Machine φ) {n : Int}
    (hn : 1 ≤ n) (b e : ℚ) (foo : φ) :
    (∀ s, integrateStart w m n b e foo = some s → ∀ es t, IntegrateRun integral w m n s es t →
      t.Joined) ↔ (w.Enters (nThreadCreate m n) → w.AllJoined n m.nCpus) := by
  obtain ⟨s, hs, hcases⟩ := integrateStart_cases w m b e foo hn
  constructor
  · intro hall henters
    by_contra hw
    rcases hcases with ⟨-, hfresh⟩ | ⟨hno, -⟩
    · obtain ⟨es, t, hr, hpc, hmem⟩ := exists_unjoined integral hn hfresh hw
      exact absurd ((hall s hs es t hr).atFree hpc _ hmem) (by decide)
    · exact hno henters
  · intro hcond s' hs' es t hr
    obtain rfl : s = s' := Option.some.inj (hs.symm.trans hs')
    rcases hcases with ⟨henters, hpc, hthreads, l, hl, -⟩ | ⟨-, hpc, hthreads⟩
    · refine AtPc.joined (AtPc.run hn rfl (hcond henters) ?_ hr)
      unfold IntegrateState.AtPc
      rw [hpc]
      have hcreate := nThreadCreate_eq m n
      exact ⟨by rw [hthreads]; rfl, by omega, fun h => absurd h (Nat.lt_irrefl 0), by rw [hl]; rfl⟩
    · have hmem : ∀ x, x ∉ t.threads := by simp [(NoThreads.run ⟨hthreads, hpc⟩ hr).1]
      exact ⟨fun _ x hx => absurd hx (hmem x), fun _ x hx => absurd hx (hmem x)⟩

/-- Two threads on two processors, and nothing fails. -/
theorem joinedAtFree_two : ∃ s, integrateStart (φ := Unit)
    ⟨true, true, true, true, fun _ => true, true, fun _ => true, fun _ => true⟩
    ⟨2, fun _ => ⟨0, 0, 0, ()⟩⟩ 2 0 1 () = some s ∧
      ∀ es t, IntegrateRun (fun x => x.end_ - x.begin_)
        ⟨true, true, true, true, fun _ => true, true, fun _ => true, fun _ => true⟩
        ⟨2, fun _ => ⟨0, 0, 0, ()⟩⟩ 2 s es t → t.Joined := by
  obtain ⟨s, hs, -⟩ := integrateStart_cases
    ⟨true, true, true, true, fun _ => true, true, fun _ => true, fun _ => true⟩
    ⟨2, fun _ => ⟨0, 0, 0, ()⟩⟩ 0 1 () (show (1 : Int) ≤ 2 by decide)
  exact ⟨s, hs, (joinedAtFree_iff _ _ _ (by decide) 0 1 ()).mpr
    (fun _ => .inr ⟨fun _ _ => rfl, fun _ _ => rfl, by decide⟩) s hs⟩

/-- One thread on four processors: three of the four are not joined. They may still run when the
    block is given back. -/
theorem surplus_unjoined : ¬∀ (w : Calls) (m : Machine Unit) (n : Int), 1 ≤ n →
    ∀ (integral : ThreadInfo Unit → ℚ) (b e : ℚ) s, integrateStart w m n b e () = some s →
      ∀ es t, IntegrateRun integral w m n s es t → t.Joined := by
  intro hall
  obtain ⟨w, hw⟩ : ∃ w : Calls, w =
      ⟨true, true, true, true, fun _ => true, true, fun _ => true, fun _ => true⟩ := ⟨_, rfl⟩
  obtain ⟨m, hm⟩ : ∃ m : Machine Unit, m = ⟨4, fun _ => ⟨0, 0, 0, ()⟩⟩ := ⟨_, rfl⟩
  have henters : w.Enters (nThreadCreate m 1) := by
    subst hw
    exact ⟨rfl, rfl, rfl, rfl, fun _ _ => rfl, rfl⟩
  have hnot : ¬w.AllJoined 1 m.nCpus := by
    subst hw hm
    rintro (h | ⟨-, -, h⟩)
    · cases h
    · exact absurd h (by decide)
  obtain ⟨s, hs, hcases⟩ := integrateStart_cases (n := 1) w m 0 1 () (by decide)
  rcases hcases with ⟨-, hfresh⟩ | ⟨hno, -⟩
  · obtain ⟨es, t, hr, hpc, hmem⟩ :=
      exists_unjoined (fun _ => 0) (by decide) hfresh hnot
    exact absurd ((hall w m 1 (by decide) (fun _ => 0) 0 1 s hs es t hr).atFree hpc _ hmem)
      (by decide)
  · exact hno henters

end Runs

end CompTech.Network
