import CompTech.Queue.Model

/-!
# The numbers come in order

At every moment one process is at work and all others wait for it, so the states that can be
reached are a chain and can be listed: `Stage` is the list. Its entries are the rounds of the
parent's loop, and within a round the four places where the message — or the child that has
taken it — can be. A child whose turn has passed is done, one whose turn is to come waits for a
type that nothing on the queue has; `crew` is that picture of the children.

`Stage.step` is one step along the list, `Stage.move` says that until the end there is one, and
`ordered_run` reads the results off the entries.
-/

namespace CompTech.Queue

/-! ## The picture -/

/-- The first `m` children in round `i`: the one whose round it is is at `pc`. -/
def crew (m i : Nat) (pc : ChildPc) : List Child :=
  (List.range m).map fun k =>
    ⟨k + 1, if k + 1 < i then .done else if k + 1 = i then pc else .waiting⟩

/-- What is printed when `m` children have had their turn. -/
def numbers (m : Nat) : List (Nat × Nat) := (List.range m).map fun k => (k + 1, k + 1)

/-- The states that can be reached with `n` children. -/
inductive Stage (n : Nat) : State → Prop
  | forking {i : Nat} (hi : i ≤ n) : Stage n ⟨.forking (i + 1), crew i 0 .waiting, some [], []⟩
  | posting {i : Nat} (hi : i ≤ n) :
      Stage n ⟨.posting (i + 1), crew n (i + 1) .waiting, some [], numbers i⟩
  | posted {i : Nat} (hi : i < n) :
      Stage n ⟨.collecting (i + 1), crew n (i + 1) .waiting, some [i + 1], numbers i⟩
  | taken {i : Nat} (hi : i < n) :
      Stage n ⟨.collecting (i + 1), crew n (i + 1) .printing, some [], numbers i⟩
  | printed {i : Nat} (hi : i < n) :
      Stage n ⟨.collecting (i + 1), crew n (i + 1) .answering, some [], numbers (i + 1)⟩
  | answered {i : Nat} (hi : i < n) :
      Stage n ⟨.collecting (i + 1), crew n (i + 1) .done, some [n + 1], numbers (i + 1)⟩
  | deleting : Stage n ⟨.deleting, crew n (n + 1) .waiting, some [], numbers n⟩
  | done : Stage n ⟨.done, crew n (n + 1) .waiting, none, numbers n⟩

/-! ## The crew -/

section

variable {m n i k cap : Nat} {pc : ChildPc} {s t : State}

theorem crew_getElem? (hk : k < m) : (crew m i pc)[k]? = some
    ⟨k + 1, if k + 1 < i then .done else if k + 1 = i then pc else .waiting⟩ := by
  simp [crew, hk]

theorem crew_getElem?_none (hk : m ≤ k) : (crew m i pc)[k]? = none := by
  simp [crew, hk]

/-- The child whose round it is. -/
theorem crew_getElem?_self (hi : i < m) : (crew m (i + 1) pc)[i]? = some ⟨i + 1, pc⟩ := by
  rw [crew_getElem? hi, if_neg (Nat.lt_irrefl _), if_pos rfl]

theorem crew_set (pc' : ChildPc) :
    (crew m (i + 1) pc).set i ⟨i + 1, pc'⟩ = crew m (i + 1) pc' := by
  refine List.ext_getElem? fun j => ?_
  by_cases hj : i = j
  · subst hj
    by_cases hm : i < m
    · rw [List.getElem?_set_self (by simpa [crew] using hm), crew_getElem?_self hm]
    · rw [List.getElem?_eq_none (by simpa [crew] using hm),
        crew_getElem?_none (Nat.le_of_not_lt hm)]
  · rw [List.getElem?_set_ne hj]
    by_cases hm : j < m
    · rw [crew_getElem? hm, crew_getElem? hm]
      simp [Ne.symm hj]
    · rw [crew_getElem?_none (Nat.le_of_not_lt hm), crew_getElem?_none (Nat.le_of_not_lt hm)]

/-- A finished round is the one before the next. -/
theorem crew_done : crew m i .done = crew m (i + 1) .waiting := by
  refine List.map_congr_left fun k _ => ?_
  rcases Nat.lt_trichotomy (k + 1) i with h | h | h
  · rw [if_pos h, if_pos (by omega)]
  · rw [if_neg (by omega), if_pos h, if_pos (by omega)]
  · rw [if_neg (by omega), if_neg (by omega), if_neg (by omega)]
    simp

theorem crew_succ : crew m 0 .waiting ++ [⟨m + 1, .waiting⟩] = crew (m + 1) 0 .waiting := by
  simp [crew, List.range_succ]

/-- Before the first round every child waits. -/
theorem crew_zero : crew m 0 .waiting = crew m 1 .waiting := by
  refine List.map_congr_left fun k _ => ?_
  simp

theorem numbers_succ : numbers m ++ [(m + 1, m + 1)] = numbers (m + 1) := by
  simp [numbers, List.range_succ]

theorem numbers_prefix (h : m ≤ n) : numbers m <+: numbers n := by
  obtain ⟨d, rfl⟩ := Nat.exists_eq_add_of_le h
  rw [numbers, numbers, List.range_add, List.map_append]
  exact List.prefix_append _ _

/-! ## One step -/

/-- A child that is not at work does not move: it is done, or its message is not there. -/
theorem childStep_of_ne {parent : ParentPc} {queue : List Nat} {printed : List (Nat × Nat)}
    (hqueue : ∀ j, j < n → j ≠ i → msgrcv queue (j + 1) = none) (hmn : m ≤ n) (hk : k ≠ i) :
    childStep cap n ⟨parent, crew m (i + 1) pc, some queue, printed⟩ k = none := by
  rcases Nat.lt_or_ge k m with hlt | hge
  · simp only [childStep, crew_getElem? hlt, Option.bind_some]
    rcases Nat.lt_or_gt_of_ne hk with h | h
    · rw [if_pos (by omega)]
    · rw [if_neg (by omega), if_neg (by omega)]
      simp [hqueue k (by omega) hk]
  · simp [childStep, crew_getElem?_none hge]

/-- On an empty queue, and beside the parent's message, there is nothing for a child. -/
theorem childStep_empty {parent : ParentPc} {printed : List (Nat × Nat)} (hmn : m ≤ n) :
    childStep cap n ⟨parent, crew m (i + 1) .waiting, some [], printed⟩ k = none := by
  by_cases hk : k = i
  · subst hk
    rcases Nat.lt_or_ge k m with hlt | hge
    · simp [childStep, crew_getElem?_self hlt, msgrcv_nil]
    · simp [childStep, crew_getElem?_none hge]
  · exact childStep_of_ne (fun j _ _ => msgrcv_nil _) hmn hk

/-- The parent's step, from each entry of the list. -/
theorem Stage.step_parent (hcap : 1 ≤ cap) (hs : Stage n s) (ht : parentStep cap n s = some t) :
    Stage n t := by
  cases hs with
  | @forking i hi =>
    simp only [parentStep] at ht
    split at ht
    · cases ht
      rw [crew_succ]
      exact .forking (by omega)
    · obtain rfl : i = n := by omega
      cases ht
      rw [crew_zero]
      exact .posting (Nat.zero_le i)
  | @posting i hi =>
    simp only [parentStep] at ht
    split at ht
    · rw [msgsnd_nil hcap] at ht
      cases ht
      exact .posted (by omega)
    · obtain rfl : i = n := by omega
      cases ht
      exact .deleting
  | @posted i hi =>
    -- the parent waits for `n + 1`, and only `i + 1` is there
    simp [parentStep, msgrcv_of_ne (show n + 1 ≠ i + 1 by omega)] at ht
  | taken | printed => simp [parentStep, msgrcv_nil] at ht
  | answered hi =>
    simp only [parentStep, msgrcv_self, Option.map_some, crew_done,
      Option.some.injEq] at ht
    subst ht
    exact .posting hi
  | deleting =>
    simp only [parentStep, Option.some.injEq] at ht
    subst ht
    exact .done
  | done => simp [parentStep] at ht

/-- Where a child is at work, `childStep_of_ne` leaves only that one; elsewhere no child moves. -/
theorem Stage.step_child (hcap : 1 ≤ cap) (hs : Stage n s)
    (ht : childStep cap n s k = some t) : Stage n t := by
  cases hs with
  | forking hi =>
    rw [crew_zero, childStep_empty hi] at ht
    cases ht
  | posting | deleting =>
    rw [childStep_empty (Nat.le_refl n)] at ht
    cases ht
  | @posted i hi =>
    by_cases hk : k = i
    · subst hk
      simp only [childStep, crew_getElem?_self hi, Option.bind_some, msgrcv_self,
        Option.map_some, State.childTo, crew_set, Option.some.injEq] at ht
      subst ht
      exact .taken hi
    · have hqueue : ∀ j, j < n → j ≠ i → msgrcv [i + 1] (j + 1) = none :=
        fun j _ hj => msgrcv_of_ne (by omega)
      rw [childStep_of_ne hqueue (Nat.le_refl n) hk] at ht
      cases ht
  | @taken i hi =>
    by_cases hk : k = i
    · subst hk
      simp only [childStep, crew_getElem?_self hi, Option.bind_some, State.childTo,
        crew_set, numbers_succ, Option.some.injEq] at ht
      subst ht
      exact .printed hi
    · rw [childStep_of_ne (fun j _ _ => msgrcv_nil _) (Nat.le_refl n) hk] at ht
      cases ht
  | @printed i hi =>
    by_cases hk : k = i
    · subst hk
      simp only [childStep, crew_getElem?_self hi, Option.bind_some, msgsnd_nil hcap,
        Option.map_some, State.childTo, crew_set, Option.some.injEq] at ht
      subst ht
      exact .answered hi
    · rw [childStep_of_ne (fun j _ _ => msgrcv_nil _) (Nat.le_refl n) hk] at ht
      cases ht
  | @answered i hi =>
    by_cases hk : k = i
    · subst hk
      simp [childStep, crew_getElem?_self hi] at ht
    · -- the answer is for the parent: no child has its type
      have hqueue : ∀ j, j < n → j ≠ i → msgrcv [n + 1] (j + 1) = none :=
        fun j hj _ => msgrcv_of_ne (by omega)
      rw [childStep_of_ne hqueue (Nat.le_refl n) hk] at ht
      cases ht
  | done =>
    rcases Nat.lt_or_ge k n with hlt | hge
    · simp [childStep, crew_getElem? hlt, show k + 1 < n + 1 by omega] at ht
    · simp [childStep, crew_getElem?_none hge] at ht

/-- **One step along the list.** -/
theorem Stage.step (hcap : 1 ≤ cap) (hs : Stage n s) {act : Act}
    (ht : Queue.step cap n s act = some t) : Stage n t := by
  cases act with
  | parent => exact hs.step_parent hcap ht
  | child k => exact hs.step_child hcap ht

/-- **Until the end somebody can move.** -/
theorem Stage.move (hcap : 1 ≤ cap) (hs : Stage n s) :
    (∃ act t, Queue.step cap n s act = some t) ∨ s.parent = .done := by
  cases hs with
  | @forking i hi =>
    refine .inl ⟨.parent, ?_⟩
    simp only [Queue.step, parentStep]
    split
    · exact ⟨_, rfl⟩
    · exact ⟨_, rfl⟩
  | @posting i hi =>
    refine .inl ⟨.parent, ?_⟩
    simp only [Queue.step, parentStep, msgsnd_nil hcap]
    split
    · exact ⟨_, rfl⟩
    · exact ⟨_, rfl⟩
  | @posted i hi =>
    refine .inl ⟨.child i, ?_⟩
    simp only [Queue.step, childStep, crew_getElem?_self hi, Option.bind_some, msgrcv_self]
    exact ⟨_, rfl⟩
  | @taken i hi =>
    refine .inl ⟨.child i, ?_⟩
    simp only [Queue.step, childStep, crew_getElem?_self hi, Option.bind_some]
    exact ⟨_, rfl⟩
  | @printed i hi =>
    refine .inl ⟨.child i, ?_⟩
    simp only [Queue.step, childStep, crew_getElem?_self hi, Option.bind_some, msgsnd_nil hcap]
    exact ⟨_, rfl⟩
  | @answered i hi =>
    refine .inl ⟨.parent, ?_⟩
    simp only [Queue.step, parentStep, msgrcv_self]
    exact ⟨_, rfl⟩
  | deleting => exact .inl ⟨.parent, _, rfl⟩
  | done => exact .inr rfl

/-! ## Whole runs -/

/-- What holds at every moment of a run with `n` children. -/
structure Ordered (cap n : Nat) (s : State) : Prop where
  own : ∀ k c, s.children[k]? = some c → c.iProc = k + 1
  printed : s.printed <+: numbers n
  /-- somebody can move, or everybody has finished -/
  move : (∃ act t, Queue.step cap n s act = some t) ∨
    s.parent = .done ∧ s.children.length = n ∧ ∀ c ∈ s.children, c.pc = .done
  /-- before the queue is removed everything is printed and no child will use it again -/
  deleting : s.parent = .deleting →
    s.printed = numbers n ∧ s.children.length = n ∧ ∀ c ∈ s.children, c.pc = .done

theorem crew_own {c : Child} (h : (crew m i pc)[k]? = some c) : c.iProc = k + 1 := by
  rcases Nat.lt_or_ge k m with hlt | hge
  · rw [crew_getElem? hlt, Option.some.injEq] at h
    rw [← h]
  · rw [crew_getElem?_none hge] at h
    cases h

/-- After the last round all children are done. -/
theorem crew_all_done : ∀ c ∈ crew n (n + 1) .waiting, c.pc = .done := by
  intro c hc
  obtain ⟨k, hk, rfl⟩ := List.mem_map.mp hc
  have hlt : k + 1 < n + 1 := Nat.succ_lt_succ (List.mem_range.mp hk)
  simp [hlt]

theorem length_crew : (crew m i pc).length = m := by simp [crew]

theorem Stage.ordered (hcap : 1 ≤ cap) (hs : Stage n s) : Ordered cap n s := by
  have hmove : (∃ act t, Queue.step cap n s act = some t) ∨
      s.parent = .done ∧ s.children.length = n ∧ ∀ c ∈ s.children, c.pc = .done := by
    refine (hs.move hcap).imp_right fun hpc => ?_
    cases hs with
    | done => exact ⟨rfl, length_crew, crew_all_done⟩
    | forking | posting | posted | taken | printed | answered | deleting => cases hpc
  refine ⟨fun k c hc => ?_, ?_, hmove, fun hpc => ?_⟩
  · cases hs with
    | forking | posting | posted | taken | printed | answered | deleting | done =>
      exact crew_own hc
  · cases hs with
    | forking => exact List.nil_prefix
    | posting hi => exact numbers_prefix hi
    | posted hi | taken hi => exact numbers_prefix (Nat.le_of_lt hi)
    | printed hi | answered hi => exact numbers_prefix hi
    | deleting | done => exact List.prefix_rfl
  · cases hs with
    | deleting => exact ⟨rfl, length_crew, crew_all_done⟩
    | forking | posting | posted | taken | printed | answered | done => cases hpc

/-- **Ordered printing.** For every number of children and every interleaving. `Ordered` says that
    what is printed is a beginning of `1, …, n`, each number by its own child, that somebody can go
    on until all are done, and that the queue is not removed before. -/
theorem ordered_run (hcap : 1 ≤ cap) {acts : List Act}
    (hr : Lib.Run (Queue.step cap n) Lib.Always start acts s) : Ordered cap n s := by
  have hstage : Stage n s := by
    refine hr.invariant ?_ fun s act t hs _ ht => hs.step hcap ht
    exact .forking (Nat.zero_le n)
  exact hstage.ordered hcap

end

/-- Two children, up to the point where the queue is removed. -/
theorem ordered_two :
    Ordered 1 2 ⟨.deleting, [⟨1, .done⟩, ⟨2, .done⟩], some [], [(1, 1), (2, 2)]⟩ := by
  have hrun : Lib.exec (step 1 2) Lib.Always [.parent, .parent, .parent, .parent, .child 0,
      .child 0, .child 0, .parent, .parent, .child 1, .child 1, .child 1, .parent, .parent] start =
        some ⟨.deleting, [⟨1, .done⟩, ⟨2, .done⟩], some [], [(1, 1), (2, 2)]⟩ := by decide
  exact ordered_run (Nat.le_refl 1) (.of_exec hrun)

end CompTech.Queue
