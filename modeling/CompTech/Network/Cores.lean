import CompTech.Network.Growing

/-!
# Which processor is in which group

What the loop of `get_mycpu_info` makes of the core ids. A core that is met again must find the
group it opened, and the code looks for it at the index that is the core's id; the group stands at
the index that counts the cores met before it. `InOrder` says that the two agree for every core
that is met again: exactly then each group is the list of the processors of its core.

Whatever the ids are, a group that was opened has a processor (`groups_nonempty`).

A round is brought to one of two forms first (`Round`): it opens a group at `n_cpu`, or it adds to
the group at the index that is the core id. The invariants are proved of the forms, and the
equivalence follows from a run of rounds: as long as the ids are `InOrder` the groups are those of
the processors so far (`GroupsOf`), and at the first id that is not, one processor goes to a wrong
group and stays there.
-/

namespace CompTech.Network

open Lib

/-! ## One round

Each of the branches of a round is taken apart once (`groupRound_ok`), with all that may be
undefined in it: an index outside the array, an array of a group that is full and does not grow. A
round that is defined has one of two forms. -/

/-- The processors of a group. -/
def Cpu.procs (c : Cpu) : List Int := (c.processors.getD []).take c.nProc

/-- The array of the group has the size that is noted, and room for what it has. -/
def Cpu.Fits (c : Cpu) : Prop := Network.Fits c.processors c.capacity c.nProc

theorem zeroCpu_fits : zeroCpu.Fits := ⟨by simp [zeroCpu], by simp [zeroCpu]⟩

theorem zeroCpu_procs : zeroCpu.procs = [] := rfl

theorem Cpu.length_procs {c : Cpu} (h : c.Fits) : c.procs.length = c.nProc := by
  rw [procs, List.length_take_of_le h.used]

/-- `i` goes in behind the processors of `c`. -/
structure Added (i : Int) (c c' : Cpu) : Prop where
  fits : c'.Fits
  procs : c'.procs = c.procs ++ [i]

section

variable {mem : Memory} {ids : List Int} {i n : Nat} {s s' : Groups} {k id : Int}

/-- What a processor that is added changes. -/
theorem addProcessor_ok (hfits : ∀ c ∈ s.cpus, c.Fits) (h : addProcessor mem i s k = .ok s') :
    0 ≤ k ∧ ∃ c c', s.cpus[k.toNat]? = some c ∧ Added i c c' ∧
      s' = { s with cpus := s.cpus.set k.toNat c' } := by
  unfold addProcessor at h
  split at h
  · exact absurd h (by simp)
  · rename_i c hc
    have hk : ¬ k < 0 := fun hneg => by rw [if_pos hneg] at hc; exact absurd hc (by simp)
    rw [if_neg hk] at hc
    refine ⟨by omega, c, ?_⟩
    rcases @addToArray_cases _ mem.freshProcessor (mem.realloc i) _ _ _ (i : Int)
      (hfits c (List.mem_of_getElem? hc)) with ⟨block, size, hadd, hf, htake⟩ | ⟨-, -, hadd⟩
    · rw [addToProcessorsArray, hadd] at h
      simp only [ne_eq, not_true_eq_false, if_false, Except.ok.injEq] at h
      exact ⟨⟨some block, c.nProc + 1, size⟩, hc, ⟨hf, htake⟩, h.symm⟩
    · rw [addToProcessorsArray, hadd] at h
      exact absurd h (by simp)

theorem openGroup_eq (hroom : s.nCpu < s.size) (hsize : s.size = s.cpus.length) :
    openGroup mem i s = .ok { s with cpus := s.cpus.set s.nCpu zeroCpu } := by
  have hadd : addToCpusArray mem i (some s.cpus) s.size zeroCpu s.nCpu =
      some ((some (s.cpus.set s.nCpu zeroCpu), s.size), 0) := by
    rw [addToCpusArray, addToArray]
    simp [Nat.not_le.mpr hroom, storeAt_eq_set _ zeroCpu (hsize ▸ hroom)]
  rw [openGroup, hadd]

theorem findInArray_eq_neg_one_iff : findInArray ids i id = -1 ↔ id ∉ ids.take i := by
  unfold findInArray
  split
  · rename_i j hj
    have hmem : id ∈ ids.take i := by
      obtain ⟨hlt, heq, -⟩ := List.findIdx?_eq_some_iff_getElem.mp hj
      exact (beq_iff_eq.mp heq) ▸ List.getElem_mem hlt
    exact iff_of_false (by omega) (fun h => h hmem)
  · rename_i hnone
    refine iff_of_true rfl fun hmem => ?_
    have h := List.findIdx?_eq_none_iff.mp hnone id hmem
    simp at h

/-- What holds of the groups before round `i`, whatever the ids are. -/
structure GroupInv (n i : Nat) (s : Groups) : Prop where
  length : s.cpus.length = n
  size : s.size = n
  le : s.nCpu ≤ i
  fits : ∀ c ∈ s.cpus, c.Fits
  /-- only processors that have been met are in a group -/
  met : ∀ c ∈ s.cpus, ∀ p ∈ c.procs, p < i
  /-- a group that was opened has a processor -/
  nonempty : ∀ k, k < s.nCpu → ∃ c, s.cpus[k]? = some c ∧ 1 ≤ c.nProc

/-- A round that goes well opens a group or adds to one; `met` are the ids of the rounds before. -/
inductive Round (met : List Int) (i : Nat) (id : Int) (s : Groups) : Groups → Prop
  | opened {c : Cpu} : id ∉ met → Added i zeroCpu c →
      Round met i id s { s with cpus := s.cpus.set s.nCpu c, nCpu := s.nCpu + 1 }
  | joined {c c' : Cpu} : id ∈ met → 0 ≤ id → s.cpus[id.toNat]? = some c → Added i c c' →
      Round met i id s { s with cpus := s.cpus.set id.toNat c' }

theorem GroupInv.fits_opened (hinv : GroupInv n i s) : ∀ c ∈ s.cpus.set s.nCpu zeroCpu, c.Fits := by
  intro c hc
  rcases List.mem_or_eq_of_mem_set hc with hmem | rfl
  · exact hinv.fits c hmem
  · exact zeroCpu_fits

/-- The case analysis of `groupRound`, once. -/
theorem groupRound_ok (hinv : GroupInv n i s) (hin : i < n) (h : groupRound mem ids s i = .ok s') :
    ∃ id, ids[i]? = some id ∧ Round (ids.take i) i id s s' := by
  unfold groupRound at h
  split at h
  · exact absurd h (by simp)
  rename_i id hid
  refine ⟨id, hid, ?_⟩
  split at h
  · rename_i hnew
    have hlt : s.nCpu < s.cpus.length := by
      rw [hinv.length]
      exact Nat.lt_of_le_of_lt hinv.le hin
    have hopen := @openGroup_eq mem i s (by rw [hinv.size, ← hinv.length]; exact hlt)
      (hinv.size.trans hinv.length.symm)
    rw [hopen] at h
    simp only [bind, Except.bind, pure, Except.pure] at h
    split at h
    · exact absurd h (by simp)
    rename_i s₁ hadd
    obtain ⟨-, c, c', hc, hadded, rfl⟩ := addProcessor_ok hinv.fits_opened hadd
    rw [Int.toNat_natCast, List.getElem?_set_self hlt] at hc
    obtain rfl := Option.some.inj hc
    rw [Int.toNat_natCast, List.set_set, Except.ok.injEq] at h
    subst h
    exact .opened (findInArray_eq_neg_one_iff.mp hnew) hadded
  · rename_i hold
    obtain ⟨hpos, c, c', hc, hadded, rfl⟩ := addProcessor_ok hinv.fits h
    have hmet : id ∈ ids.take i := by
      by_contra hnot
      exact hold (findInArray_eq_neg_one_iff.mpr hnot)
    exact .joined hmet hpos hc hadded

theorem Added.nProc {c c' : Cpu} (h : Added i c c') (hc : c.Fits) : c'.nProc = c.nProc + 1 := by
  have hlen := congrArg List.length h.procs
  rwa [List.length_append, c'.length_procs h.fits, c.length_procs hc] at hlen

/-- Before the first round no group is open. -/
theorem GroupInv.start (n : Nat) : GroupInv n 0 ⟨List.replicate n zeroCpu, n, 0⟩ where
  length := List.length_replicate
  size := rfl
  le := le_refl 0
  fits c hc := List.eq_of_mem_replicate hc ▸ zeroCpu_fits
  met c hc p hp := by
    obtain rfl := List.eq_of_mem_replicate hc
    exact absurd hp (by simp [zeroCpu_procs])
  nonempty k hk := absurd hk (Nat.not_lt_zero k)

/-- A group that has changed, and perhaps is new. -/
theorem GroupInv.set {j m : Nat} {c : Cpu} (hinv : GroupInv n i s) (hj : j < n) (hm : m ≤ i + 1)
    (hfits : c.Fits) (hprocs : ∀ p ∈ c.procs, p < ((i + 1 : Nat) : Int)) (hone : 1 ≤ c.nProc)
    (hopen : ∀ k < m, k = j ∨ k < s.nCpu) :
    GroupInv n (i + 1) { s with cpus := s.cpus.set j c, nCpu := m } where
  length := (List.length_set ..).trans hinv.length
  size := hinv.size
  le := hm
  fits d hd := by
    rcases List.mem_or_eq_of_mem_set hd with hmem | rfl
    · exact hinv.fits d hmem
    · exact hfits
  met d hd p hp := by
    rcases List.mem_or_eq_of_mem_set hd with hmem | rfl
    · have hlt := hinv.met d hmem p hp
      omega
    · exact hprocs p hp
  nonempty k hk := by
    by_cases hkj : k = j
    · subst hkj
      exact ⟨c, List.getElem?_set_self (hinv.length.symm ▸ hj), hone⟩
    · obtain ⟨d, hd, hd₁⟩ := hinv.nonempty k ((hopen k hk).resolve_left hkj)
      exact ⟨d, by rw [List.getElem?_set_ne (Ne.symm hkj)]; exact hd, hd₁⟩

/-- One case for each form of a round. -/
theorem GroupInv.step {met : List Int} (hinv : GroupInv n i s) (hin : i < n)
    (h : Round met i id s s') : GroupInv n (i + 1) s' := by
  have hprocs : ∀ {c c' : Cpu}, (∀ p ∈ c.procs, p < (i : Int)) → Added i c c' →
      ∀ p ∈ c'.procs, p < ((i + 1 : Nat) : Int) := by
    intro c c' hc hadd p hp
    rw [hadd.procs, List.mem_append, List.mem_singleton] at hp
    rcases hp with hp | rfl
    · have hlt := hc p hp
      omega
    · omega
  have hle := hinv.le
  cases h with
  | opened hmet hadd =>
    have hone := hadd.nProc zeroCpu_fits
    exact hinv.set (by omega) (by omega) hadd.fits
      (hprocs (fun p hp => absurd hp (by simp [zeroCpu_procs])) hadd) (by omega)
      (fun k hk => by omega)
  | joined hmet hpos hc hadd =>
    have hmem := List.mem_of_getElem? hc
    have hone := hadd.nProc (hinv.fits _ hmem)
    have hlt := (List.getElem?_eq_some_iff.mp hc).1
    exact hinv.set (hinv.length ▸ hlt) (by omega) hadd.fits (hprocs (hinv.met _ hmem) hadd)
      (by omega) (fun k hk => .inr hk)

/-! ## All rounds

The loop of the source as a fold over the numbers of the processors, and its prefixes, for the
induction on the rounds. -/

/-- The groups before round `i`. -/
def groupsAt (mem : Memory) (ids : List Int) (i : Nat) : Except Fault Groups :=
  (List.range' 0 i).foldlM (groupRound mem ids)
    ⟨List.replicate ids.length zeroCpu, ids.length, 0⟩

theorem groupsAt_succ (mem : Memory) (ids : List Int) (i : Nat) :
    groupsAt mem ids (i + 1) = (groupsAt mem ids i).bind (groupRound mem ids · i) := by
  rw [groupsAt, List.range'_concat, List.foldlM_append, Nat.zero_add, Nat.one_mul]
  show (groupsAt mem ids i).bind (fun s => [i].foldlM (groupRound mem ids) s) = _
  congr 1
  funext s
  rw [List.foldlM_cons]
  cases groupRound mem ids s i <;> rfl

theorem groupsAt_succ_ok (h : groupsAt mem ids (i + 1) = .ok s') :
    ∃ s, groupsAt mem ids i = .ok s ∧ groupRound mem ids s i = .ok s' := by
  rw [groupsAt_succ] at h
  cases hs : groupsAt mem ids i with
  | error e => rw [hs] at h; exact absurd h (by simp [Except.bind])
  | ok s => rw [hs] at h; exact ⟨s, rfl, h⟩

/-- Induction on the number of rounds. -/
theorem groupsAt_inv : ∀ {i : Nat} {s : Groups}, i ≤ ids.length → groupsAt mem ids i = .ok s →
    GroupInv ids.length i s := by
  intro i
  induction i with
  | zero =>
    intro s _ h
    obtain rfl := Except.ok.inj h
    exact .start _
  | succ i ih =>
    intro s hi h
    obtain ⟨s₀, hs₀, hround⟩ := groupsAt_succ_ok h
    have hinv := ih (by omega) hs₀
    obtain ⟨id, -, hr⟩ := groupRound_ok hinv hi hround
    exact hinv.step hi hr

/-- A run that goes well, with the round it ends with. -/
theorem groupsAt_round (hi : i < ids.length) (h : groupsAt mem ids (i + 1) = .ok s') :
    ∃ s id, groupsAt mem ids i = .ok s ∧ GroupInv ids.length i s ∧ ids[i]? = some id ∧
      Round (ids.take i) i id s s' := by
  obtain ⟨s, hs, hround⟩ := groupsAt_succ_ok h
  have hinv := groupsAt_inv (Nat.le_of_lt hi) hs
  obtain ⟨id, hid, hr⟩ := groupRound_ok hinv hi hround
  exact ⟨s, id, hs, hinv, hid, hr⟩

end

/-! ## What the groups should be

The specification, on lists of ids alone: the different ids in the order in which they appear, and
the processors of each. -/

/-- The different ids, in the order of their first appearance. -/
def distinct (ids : List Int) : List Int :=
  ids.foldl (fun seen id => if id ∈ seen then seen else seen ++ [id]) []

/-- The processors of the core `id`, in increasing order. -/
def members (ids : List Int) (id : Int) : List Int :=
  ((List.range ids.length).filter fun i => ids[i]? == some id).map fun (i : Nat) => (i : Int)

theorem distinct_snoc (ids : List Int) (id : Int) :
    distinct (ids ++ [id]) = if id ∈ distinct ids then distinct ids else distinct ids ++ [id] := by
  rw [distinct, List.foldl_append]
  rfl

theorem mem_distinct {ids : List Int} {id : Int} : id ∈ distinct ids ↔ id ∈ ids := by
  induction ids using List.reverseRecOn with
  | nil => rfl
  | append_singleton ids x ih =>
    rw [distinct_snoc, List.mem_append, List.mem_singleton, ← ih]
    split
    · rename_i hx
      exact ⟨.inl, fun h => h.elim (fun h => h) (fun h => h ▸ hx)⟩
    · rw [List.mem_append, List.mem_singleton]

theorem nodup_distinct (ids : List Int) : (distinct ids).Nodup := by
  induction ids using List.reverseRecOn with
  | nil => exact List.nodup_nil
  | append_singleton ids x ih =>
    rw [distinct_snoc]
    split
    · exact ih
    · rename_i hx
      exact List.nodup_append.mpr ⟨ih, List.nodup_singleton x, fun a ha b hb => by
        rw [List.mem_singleton.mp hb]
        rintro rfl
        exact hx ha⟩

theorem distinct_prefix (ids more : List Int) : distinct ids <+: distinct (ids ++ more) := by
  induction more using List.reverseRecOn with
  | nil => rw [List.append_nil]
  | append_singleton more x ih =>
    rw [← List.append_assoc, distinct_snoc]
    split
    · exact ih
    · exact ih.trans (List.prefix_append ..)

theorem members_snoc (ids : List Int) (id x : Int) :
    members (ids ++ [x]) id = if x = id then members ids id ++ [(ids.length : Int)]
      else members ids id := by
  have hold : (List.range ids.length).filter (fun i => (ids ++ [x])[i]? == some id) =
      (List.range ids.length).filter fun i => ids[i]? == some id := by
    refine List.filter_congr fun i hi => ?_
    rw [List.getElem?_append_left (List.mem_range.mp hi)]
  rw [members, List.length_append, List.length_singleton, List.range_succ, List.filter_append, hold]
  by_cases hx : x = id
  · simp [hx, members]
  · simp [hx, members]

theorem members_eq_nil {ids : List Int} {id : Int} (h : id ∉ ids) : members ids id = [] := by
  rw [members, List.map_eq_nil_iff, List.filter_eq_nil_iff]
  intro i _ hi
  exact h (List.mem_of_getElem? (beq_iff_eq.mp hi))

theorem mem_members {ids : List Int} {id : Int} {i : Nat} (h : ids[i]? = some id) :
    (i : Int) ∈ members ids id := by
  have hlt := (List.getElem?_eq_some_iff.mp h).1
  exact List.mem_map.mpr ⟨i, List.mem_filter.mpr ⟨List.mem_range.mpr hlt, by simp [h]⟩, rfl⟩

theorem of_mem_members {ids : List Int} {id : Int} {i : Nat} (h : (i : Int) ∈ members ids id) :
    ids[i]? = some id := by
  obtain ⟨j, hj, hji⟩ := List.mem_map.mp h
  obtain rfl : j = i := by omega
  exact beq_iff_eq.mp (List.mem_filter.mp hj).2

/-- The slot of a core: how many cores are met before it. -/
def slot (ids : List Int) (id : Int) : Nat := (distinct ids).idxOf id

theorem getElem?_slot {ids : List Int} {id : Int} (h : id ∈ ids) :
    (distinct ids)[slot ids id]? = some id :=
  List.getElem?_idxOf (mem_distinct.mpr h)

theorem slot_eq {ids : List Int} {id : Int} {k : Nat} (h : (distinct ids)[k]? = some id) :
    slot ids id = k := by
  obtain ⟨hlt, rfl⟩ := List.getElem?_eq_some_iff.mp h
  exact (nodup_distinct ids).idxOf_getElem k hlt

/-- A core that has been met keeps its slot. -/
theorem slot_append {ids : List Int} {id : Int} (more : List Int) (h : id ∈ ids) :
    slot (ids ++ more) id = slot ids id := by
  obtain ⟨rest, hrest⟩ := distinct_prefix ids more
  have hlt : slot ids id < (distinct ids).length :=
    List.idxOf_lt_length_of_mem (mem_distinct.mpr h)
  refine slot_eq ?_
  rw [← hrest, List.getElem?_append_left hlt]
  exact getElem?_slot h

/-- A core that is met again has the id of its slot. -/
def InOrder (ids : List Int) : Prop :=
  ∀ i id, ids[i]? = some id → id ∈ ids.take i → id = slot ids id

/-- The first `nCpu` groups are the cores. -/
structure Grouped (ids : List Int) (cpus : List Cpu) (nCpu : Nat) : Prop where
  count : nCpu = (distinct ids).length
  groups : ∀ (k : Nat) (id : Int), (distinct ids)[k]? = some id →
    ∃ c, cpus[k]? = some c ∧ c.nProc = (members ids id).length ∧ c.procs = members ids id
  /-- each processor is in one group -/
  once : ∀ i < ids.length, ∃! k, k < nCpu ∧ ∃ c, cpus[k]? = some c ∧ (i : Int) ∈ c.procs

section

variable {mem : Memory} {ids : List Int} {i : Nat} {s s' : Groups}

/-- Each group that is open is that of its core. -/
def GroupsOf (met : List Int) (s : Groups) : Prop :=
  s.nCpu = (distinct met).length ∧
  ∀ (k : Nat) (id : Int), (distinct met)[k]? = some id →
    ∃ c, s.cpus[k]? = some c ∧ c.procs = members met id

theorem take_succ_eq {id : Int} (h : ids[i]? = some id) :
    ids.take (i + 1) = ids.take i ++ [id] := by
  rw [List.take_add_one, h]
  rfl

/-- A group for every core that was met, whatever else goes wrong. Induction on the rounds. -/
theorem nCpu_eq : ∀ {i : Nat} {s : Groups}, i ≤ ids.length → groupsAt mem ids i = .ok s →
    s.nCpu = (distinct (ids.take i)).length := by
  intro i
  induction i with
  | zero =>
    intro s _ h
    obtain rfl := Except.ok.inj h
    rfl
  | succ i ih =>
    intro s' hi h
    obtain ⟨s, id, hs, -, hid, hr⟩ := groupsAt_round hi h
    have hcount := ih (by omega) hs
    rw [take_succ_eq hid, distinct_snoc]
    cases hr with
    | opened hmet hadd =>
      rw [if_neg (fun h => hmet (mem_distinct.mp h)), List.length_append, ← hcount]
      rfl
    | joined hmet hpos hc hadd =>
      rw [if_pos (mem_distinct.mpr hmet), ← hcount]

/-- A round that is in order. A new core gets a group behind the others, and one that was met has
    the slot of its id. -/
theorem GroupsOf.step {met : List Int} {id : Int} (h : GroupsOf met s) (hi : met.length = i)
    (hlen : s.nCpu < s.cpus.length) (horder : id ∈ met → id = slot met id)
    (hr : Round met i id s s') : GroupsOf (met ++ [id]) s' := by
  obtain ⟨hcount, hgroups⟩ := h
  cases hr with
  | @opened c hmet hadd =>
    have hdist : distinct (met ++ [id]) = distinct met ++ [id] := by
      rw [distinct_snoc, if_neg (fun h => hmet (mem_distinct.mp h))]
    refine ⟨by rw [hdist, List.length_append, ← hcount]; rfl, fun k x hk => ?_⟩
    rw [hdist] at hk
    rcases Nat.lt_trichotomy k (distinct met).length with hlt | rfl | hgt
    · rw [List.getElem?_append_left hlt] at hk
      obtain ⟨d, hd, hprocs⟩ := hgroups k x hk
      have hx : id ≠ x := by
        rintro rfl
        exact hmet (mem_distinct.mp (List.mem_of_getElem? hk))
      refine ⟨d, ?_, by rw [members_snoc, if_neg hx]; exact hprocs⟩
      rw [List.getElem?_set_ne (by omega)]
      exact hd
    · obtain rfl : id = x := by simpa using hk
      refine ⟨c, by rw [← hcount]; exact List.getElem?_set_self hlen, ?_⟩
      rw [hadd.procs, members_snoc, if_pos rfl, members_eq_nil hmet, hi, zeroCpu_procs]
    · rw [List.getElem?_eq_none (by simp; omega)] at hk
      exact absurd hk (by simp)
  | @joined c c' hmet hpos hc hadd =>
    have hdist : distinct (met ++ [id]) = distinct met := by
      rw [distinct_snoc, if_pos (mem_distinct.mpr hmet)]
    have hslot : slot met id = id.toNat := by
      have h := horder hmet
      omega
    refine ⟨by rw [hdist]; exact hcount, fun k x hk => ?_⟩
    rw [hdist] at hk
    obtain ⟨d, hd, hprocs⟩ := hgroups k x hk
    by_cases hx : id = x
    · subst hx
      obtain rfl : k = id.toNat := (slot_eq hk).symm.trans hslot
      obtain rfl : c = d := Option.some.inj (hc.symm.trans hd)
      refine ⟨c', List.getElem?_set_self (List.getElem?_eq_some_iff.mp hc).1, ?_⟩
      rw [hadd.procs, members_snoc, if_pos rfl, hprocs, hi]
    · have hk' : id.toNat ≠ k := by
        rintro rfl
        exact hx (Option.some.inj ((hslot ▸ getElem?_slot hmet).symm.trans hk))
      refine ⟨d, by rw [List.getElem?_set_ne hk']; exact hd, ?_⟩
      rw [members_snoc, if_neg hx]
      exact hprocs

/-! ## Where every core finds its group

The memory is granted here, so that a round is undefined only by its index. In order the index of a
core that is met again is its slot, and that is a group that is open. -/

/-- With memory enough a processor always finds room in a group that is there. -/
theorem addProcessor_plenty {fc : Nat → Cpu} {fp : Nat → Int} {k : Int}
    (hfits : ∀ c ∈ s.cpus, c.Fits) (hk : 0 ≤ k) (hlt : k.toNat < s.cpus.length) :
    ∃ s', addProcessor (.plenty fc fp) i s k = .ok s' := by
  obtain ⟨c, hc⟩ : ∃ c, s.cpus[k.toNat]? = some c := ⟨_, List.getElem?_eq_getElem hlt⟩
  rw [addProcessor, if_neg (by omega), hc]
  rcases @addToArray_cases _ fp true _ _ _ (i : Int) (hfits c (List.mem_of_getElem? hc)) with
    ⟨block, size, hadd, -, -⟩ | ⟨h, -⟩
  · refine ⟨{ s with cpus := s.cpus.set k.toNat ⟨some block, c.nProc + 1, size⟩ }, ?_⟩
    simp [addToProcessorsArray, Memory.plenty, hadd]
  · exact absurd h (by simp)

/-- And so a round is undefined only by an index. -/
theorem groupRound_plenty {fc : Nat → Cpu} {fp : Nat → Int} {id : Int}
    (hinv : GroupInv ids.length i s) (hid : ids[i]? = some id)
    (hok : id ∈ ids.take i → 0 ≤ id ∧ id.toNat < ids.length) :
    ∃ s', groupRound (.plenty fc fp) ids s i = .ok s' := by
  have hi := (List.getElem?_eq_some_iff.mp hid).1
  have hlt : s.nCpu < s.cpus.length := by
    rw [hinv.length]
    exact Nat.lt_of_le_of_lt hinv.le hi
  rw [groupRound, hid]
  dsimp only
  by_cases hmet : id ∈ ids.take i
  · rw [if_neg (fun h => findInArray_eq_neg_one_iff.mp h hmet)]
    exact addProcessor_plenty hinv.fits (hok hmet).1 (hinv.length.symm ▸ (hok hmet).2)
  · rw [if_pos (findInArray_eq_neg_one_iff.mpr hmet),
      openGroup_eq (by rw [hinv.size, ← hinv.length]; exact hlt)
        (hinv.size.trans hinv.length.symm)]
    obtain ⟨s₁, hs₁⟩ := @addProcessor_plenty i { s with cpus := s.cpus.set s.nCpu zeroCpu } fc fp
      s.nCpu hinv.fits_opened (by omega) (by rw [Int.toNat_natCast, List.length_set]; exact hlt)
    exact ⟨{ s₁ with nCpu := s₁.nCpu + 1 }, by simp only [bind, Except.bind, hs₁]; rfl⟩

/-- In order: every round finds the group of its core. Induction on the rounds. -/
theorem groupsAt_groupsOf (fc : Nat → Cpu) (fp : Nat → Int) (h : InOrder ids) :
    ∀ i, i ≤ ids.length →
    ∃ s, groupsAt (.plenty fc fp) ids i = .ok s ∧ GroupsOf (ids.take i) s := by
  intro i
  induction i with
  | zero => exact fun _ => ⟨_, rfl, rfl, fun k id hk => absurd hk (by simp [distinct])⟩
  | succ i ih =>
    intro hi
    obtain ⟨s, hs, hgroups⟩ := ih (by omega)
    have hinv := groupsAt_inv (by omega) hs
    obtain ⟨id, hid⟩ : ∃ id, ids[i]? = some id := ⟨_, List.getElem?_eq_getElem hi⟩
    have hslot : id ∈ ids.take i → id = slot (ids.take i) id := by
      intro hmet
      have hall := h i id hid hmet
      rwa [← List.take_append_drop i ids, slot_append _ hmet] at hall
    have hok : id ∈ ids.take i → 0 ≤ id ∧ id.toNat < ids.length := by
      intro hmet
      have hlt := (List.getElem?_eq_some_iff.mp (getElem?_slot hmet)).1
      have hle := hinv.le
      rw [← hgroups.1] at hlt
      have h := hslot hmet
      omega
    obtain ⟨s', hs'⟩ := @groupRound_plenty ids i s fc fp id hinv hid hok
    obtain ⟨id', hid', hr⟩ := groupRound_ok hinv hi hs'
    obtain rfl : id = id' := Option.some.inj (hid.symm.trans hid')
    refine ⟨s', by rw [groupsAt_succ, hs]; exact hs', ?_⟩
    rw [take_succ_eq hid]
    refine hgroups.step (by rw [List.length_take]; omega) ?_ hslot hr
    rw [hinv.length]
    exact Nat.lt_of_le_of_lt hinv.le hi

/-! ## Where one does not

The first core that is met again at a wrong slot loses a processor to another group, and that
processor is never moved. -/

/-- A processor that went to another group is in none of the groups it missed, then or later.
    Induction on the rounds behind the one in question: groups only get processors added, and each
    round adds its own. -/
theorem groupsAt_missed {id : Int} (hid : ids[i]? = some id) (hmet : id ∈ ids.take i)
    (hne : id ≠ slot ids id) : ∀ {j : Nat} {s : Groups}, i < j → j ≤ ids.length →
    groupsAt mem ids j = .ok s → ∀ c, s.cpus[slot ids id]? = some c → (i : Int) ∉ c.procs := by
  intro j s hij
  induction j, hij using Nat.le_induction generalizing s with
  -- round `i` itself: the group at the id is not the one of the core
  | base =>
    intro hi h c hc
    obtain ⟨s₀, id', hs₀, hinv, hid', hr⟩ := groupsAt_round hi h
    obtain rfl : id = id' := Option.some.inj (hid.symm.trans hid')
    cases hr with
    | opened hnew _ => exact absurd hmet hnew
    | joined _ hpos _ _ =>
      rw [List.getElem?_set_ne (by omega)] at hc
      exact fun hmem => absurd (hinv.met c (List.mem_of_getElem? hc) _ hmem) (by omega)
  | succ j hij ih =>
    intro hj h c hc
    obtain ⟨s₀, id', hs₀, hinv, hid', hr⟩ := groupsAt_round hj h
    have hold : ∀ c, s₀.cpus[slot ids id]? = some c → (i : Int) ∉ c.procs := ih (by omega) hs₀
    -- round `j` adds `j`
    have hadded : ∀ {c c' : Cpu}, Added j c c' → (i : Int) ∉ c.procs → (i : Int) ∉ c'.procs := by
      intro c c' hadd hc hmem
      rw [hadd.procs, List.mem_append, List.mem_singleton] at hmem
      rcases hmem with hmem | heq
      · exact hc hmem
      · omega
    cases hr with
    | opened hnew hadd =>
      rw [List.getElem?_set] at hc
      split at hc
      · split at hc
        · obtain rfl := Option.some.inj hc
          exact hadded hadd (by simp [zeroCpu_procs])
        · exact absurd hc (by simp)
      · exact hold c hc
    | joined _ hpos hd hadd =>
      rw [List.getElem?_set] at hc
      split at hc
      · rename_i heq
        split at hc
        · obtain rfl := Option.some.inj hc
          exact hadded hadd (hold _ (heq ▸ hd))
        · exact absurd hc (by simp)
      · exact hold c hc

/-! ## The groups of get_mycpu_info

The two directions of the equivalence are the two sections above, and the arrays of the result are
those of the last round. -/

theorem groupCpus_eq_some {cpus : List Cpu} {nCpu : Nat} :
    groupCpus mem ids = some ⟨some cpus, nCpu⟩ ↔
      mem.calloc ids.length = true ∧
        ∃ size, groupsAt mem ids ids.length = .ok ⟨cpus, size, nCpu⟩ := by
  unfold groupCpus groupsAt
  by_cases hc : mem.calloc ids.length = false
  · simp [hc]
  · rw [if_neg hc]
    cases (List.range' 0 ids.length).foldlM (groupRound mem ids)
      ⟨List.replicate ids.length zeroCpu, ids.length, 0⟩ with
    | ok s =>
      obtain ⟨cpus', size', nCpu'⟩ := s
      simp [Bool.eq_true_of_not_eq_false hc]
    | error e => cases e <;> simp

/-- Whatever the ids are and wherever they went, an opened group has a processor, and there is a
    group if there is an id. -/
theorem groups_nonempty {cpus : List Cpu} {nCpu : Nat}
    (h : groupCpus mem ids = some ⟨some cpus, nCpu⟩) :
    (nCpu = 0 ↔ ids = []) ∧ ∀ k < nCpu, ∃ c, cpus[k]? = some c ∧ 1 ≤ c.nProc := by
  obtain ⟨-, size, hs⟩ := groupCpus_eq_some.mp h
  have hcount := nCpu_eq (le_refl _) hs
  rw [List.take_length] at hcount
  refine ⟨?_, (groupsAt_inv (le_refl _) hs).nonempty⟩
  show nCpu = 0 ↔ _
  rw [show nCpu = (distinct ids).length from hcount, List.length_eq_zero_iff]
  constructor
  · intro hnil
    refine List.eq_nil_iff_forall_not_mem.mpr fun id hid => ?_
    exact absurd (mem_distinct.mpr hid) (by simp [hnil])
  · rintro rfl
    rfl

theorem GroupsOf.grouped (h : GroupsOf ids s) (hfits : ∀ c ∈ s.cpus, c.Fits) :
    Grouped ids s.cpus s.nCpu where
  count := h.1
  groups k id hk := by
    obtain ⟨c, hc, hprocs⟩ := h.2 k id hk
    refine ⟨c, hc, ?_, hprocs⟩
    rw [← hprocs, c.length_procs (hfits c (List.mem_of_getElem? hc))]
  once i hi := by
    obtain ⟨id, hid⟩ : ∃ id, ids[i]? = some id := ⟨_, List.getElem?_eq_getElem hi⟩
    have hk := getElem?_slot (List.mem_of_getElem? hid)
    obtain ⟨c, hc, hprocs⟩ := h.2 _ id hk
    refine ⟨slot ids id, ⟨?_, c, hc, by rw [hprocs]; exact mem_members hid⟩, ?_⟩
    · rw [h.1]
      exact (List.getElem?_eq_some_iff.mp hk).1
    · rintro k ⟨hlt, d, hd, hmem⟩
      rw [h.1] at hlt
      have hget := List.getElem?_eq_getElem hlt
      obtain ⟨d', hd', hprocs'⟩ := h.2 k _ hget
      obtain rfl : d = d' := Option.some.inj (hd.symm.trans hd')
      rw [hprocs'] at hmem
      have hsame := Option.some.inj (hid.symm.trans (of_mem_members hmem))
      exact (slot_eq (hsame ▸ hget)).symm

theorem inOrder_of_grouped {cpus : List Cpu} {nCpu : Nat}
    (h : groupCpus mem ids = some ⟨some cpus, nCpu⟩) (hg : Grouped ids cpus nCpu) :
    InOrder ids := by
  intro i id hid hmet
  by_contra hne
  obtain ⟨-, size, hs⟩ := groupCpus_eq_some.mp h
  have hi := (List.getElem?_eq_some_iff.mp hid).1
  obtain ⟨c, hc, -, hprocs⟩ := hg.groups _ id (getElem?_slot (List.mem_of_getElem? hid))
  refine groupsAt_missed hid hmet hne hi (le_refl _) hs c hc ?_
  rw [hprocs]
  exact mem_members hid

end

/-- **The groups are the cores** when every core that is met again has the id of its slot, and only
    then. A machine with cores numbered without a gap is in order, whatever the order of its
    processors, as long as the cores first appear in the order of their numbers. -/
theorem cores_grouped_iff (fc : Nat → Cpu) (fp : Nat → Int) (ids : List Int) :
    (∃ cpus nCpu, groupCpus (.plenty fc fp) ids = some ⟨some cpus, nCpu⟩ ∧ Grouped ids cpus nCpu) ↔
      InOrder ids := by
  constructor
  · rintro ⟨cpus, nCpu, h, hg⟩
    exact inOrder_of_grouped h hg
  · intro h
    obtain ⟨s, hs, hgroups⟩ := groupsAt_groupsOf fc fp h ids.length (le_refl _)
    rw [List.take_length] at hgroups
    have hinv := groupsAt_inv (le_refl _) hs
    exact ⟨s.cpus, s.nCpu, groupCpus_eq_some.mpr ⟨rfl, s.size, hs⟩, hgroups.grouped hinv.fits⟩

/-- Two cores with the ids 0 and 2, and two processors on each. The first processor of core 2 opens
    the group at slot 1, and its second one goes to slot 2. -/
theorem cores_gap : ¬ ∃ cpus nCpu,
    groupCpus (.plenty (fun _ => zeroCpu) (fun _ => 0)) [0, 2, 0, 2] = some ⟨some cpus, nCpu⟩ ∧
      Grouped [0, 2, 0, 2] cpus nCpu := by
  rintro ⟨cpus, nCpu, h, hg⟩
  exact absurd (inOrder_of_grouped h hg 3 2 rfl (by decide)) (by decide)

end CompTech.Network
