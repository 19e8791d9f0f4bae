import CompTech.Signal.Model

/-!
# The letters arrive

Between two signals the parent waits, and it has used as many bits as the child has sent and
seen answered: `Waits pre b i` says that it has the letters `pre` and the first `i` bits of `b`.
It may lag behind in one respect, the `write` of the last letter. `Stage` lists the states of a
run by where the bit that is under way is — with the child, pending, in `BIT`, in the parent's
letter, or its answer pending — and then the three places of the end.

A failure of the child counts as its end, so the list is closed under every step but one: a
failure before the last bit is answered (`Harmless`). `Stage.run` is the result over runs, and
`harm` says that the excluded step leads to a success with part of the file missing.
-/

namespace CompTech.Signal

/-! ## The list -/

/-- The parent waits with the letters `pre` and `i` bits of `b`. -/
inductive Waits (pre : List Letter) (b : Letter) : Nat → ParentPc → Letter → List Letter → Prop
  | suspended {i : Nat} (hi : i < 8) : Waits pre b i (.suspended i) (Lib.low i b) pre
  | writing {out : List Letter} {c : Letter} (h : out ++ [c] = pre) : Waits pre b 0 .writing c out

/-- The position behind bit `i` of `b`. -/
def nextPos (pre : List Letter) (b : Letter) (i : Nat) : List Letter × Nat :=
  if i + 1 < 8 then (pre, i + 1) else (pre ++ [b], 0)

/-- The list of the states a harmless run can reach. -/
inductive Stage (file : List Letter) : State → Prop
  | opening {pc c l bit out} (h : Waits [] 0 0 pc c out) :
      Stage file ⟨pc, c, bit, 0, .opening, l, file, false, false, false, false, out⟩
  | reading {pc c l bit out pre rest} (h : Waits pre 0 0 pc c out) (hfile : file = pre ++ rest) :
      Stage file ⟨pc, c, bit, 0, .reading, l, rest, false, false, false, false, out⟩
  | sending {pc c bit out pre b post i} (h : Waits pre b i pc c out) (hi : i < 8)
      (hfile : file = pre ++ b :: post) :
      Stage file ⟨pc, c, bit, 0, .sending i, b, post, false, false, false, false, out⟩
  | sent {pc c bit out pre b post i} (h : Waits pre b i pc c out) (hi : i < 8)
      (hfile : file = pre ++ b :: post) :
      Stage file
        ⟨pc, c, bit, 0, .suspended i, b, post, !b.getLsbD i, b.getLsbD i, false, false, out⟩
  | got {pre b post i} (hi : i < 8) (hfile : file = pre ++ b :: post) :
      Stage file ⟨.woken i, Lib.low i b, (b.getLsbD i).toNat, 0, .suspended i, b, post, false,
        false, false, false, pre⟩
  | acking {bit pre b post i} (hi : i < 8) (hfile : file = pre ++ b :: post) :
      Stage file ⟨.acking i, Lib.low (i + 1) b, bit, 0, .suspended i, b, post, false, false, false,
        false, pre⟩
  | acked {pc c bit out pre b post i} (h : Waits (nextPos pre b i).1 b (nextPos pre b i).2 pc c out)
      (hi : i < 8) (hfile : file = pre ++ b :: post) :
      Stage file ⟨pc, c, bit, 0, .suspended i, b, post, false, false, false, true, out⟩
  | closing {pc c l bit out} (h : Waits file 0 0 pc c out) :
      Stage file ⟨pc, c, bit, 0, .closing, l, [], false, false, false, false, out⟩
  | ended {pc c l bit out code} (h : Waits file 0 0 pc c out) :
      Stage file ⟨pc, c, bit, 0, .exited code, l, [], false, false, true, false, out⟩
  | died {c l bit code} :
      Stage file ⟨.woken 0, c, bit, 1, .exited code, l, [], false, false, false, false, file⟩
  | done {c l bit code} :
      Stage file ⟨.exited EXIT_SUCCESS, c, bit, 1, .exited code, l, [], false, false, false, false,
        file⟩

/-- The child fails where everything has been sent and answered, or not at all. -/
def Harmless (s : State) (act : Act) : Prop :=
  act = .child false →
    s.rest = [] ∧ (s.child = .opening ∨ s.child = .reading ∨ s.child = .closing)

instance (s : State) (act : Act) : Decidable (Harmless s act) :=
  inferInstanceAs (Decidable (act = .child false →
    s.rest = [] ∧ (s.child = .opening ∨ s.child = .reading ∨ s.child = .closing)))

/-! ## The waiting parent -/

section

variable {file pre out : List Letter} {b c : Letter} {i : Nat} {pc : ParentPc} {s t : State}

/-- Before its first bit the next letter does not matter. -/
theorem Waits.zero (b' : Letter) (h : Waits pre b 0 pc c out) : Waits pre b' 0 pc c out := by
  cases h with
  | suspended hi =>
    rw [Lib.low_zero, ← Lib.low_zero b']
    exact .suspended hi
  | writing h => exact .writing h

theorem Waits.out_prefix (h : Waits pre b i pc c out) : out <+: pre := by
  cases h with
  | suspended => exact List.prefix_rfl
  | writing h => exact h ▸ List.prefix_append _ _

/-- All that a waiting parent does by itself is to write the letter it has. -/
theorem Waits.parent (h : Waits pre b i s.parent s.curLetter s.out) (ht : parentStep s = some t) :
    ∃ pc c out, t = { s with parent := pc, curLetter := c, out := out } ∧
      Waits pre b i pc c out := by
  obtain ⟨pc, c, bit, died, child, l, rest, usr1, usr2, chld, ack, out⟩ := s
  cases h with
  | suspended => cases ht
  | writing hpre =>
    cases ht
    refine ⟨.suspended 0, 0, out ++ [c], rfl, ?_⟩
    dsimp only at hpre
    rw [hpre, ← Lib.low_zero b]
    exact .suspended (by omega)

/-- No signal, no handler. -/
theorem deliver_eq_none {sig : Sig} (h : s.pending sig = false) : deliver s sig = none := by
  unfold deliver
  cases s.parent with
  | suspended | woken => exact if_neg (by simp [h])
  | acking | writing | exited => rfl

/-- A signal finds the waiting parent in `sigsuspend`. -/
theorem Waits.deliver {sig : Sig} (h : Waits pre b i s.parent s.curLetter s.out)
    (ht : deliver s sig = some t) : s.pending sig = true ∧ s.parent = .suspended i ∧
      s.curLetter = Lib.low i b ∧ s.out = pre ∧ t = s.handle (.woken i) sig := by
  obtain ⟨pc, c, bit, died, child, l, rest, usr1, usr2, chld, ack, out⟩ := s
  cases h with
  | suspended =>
    simp only [Signal.deliver] at ht
    split at ht
    · rename_i hpend
      cases ht
      exact ⟨hpend, rfl, rfl, rfl, rfl⟩
    · cases ht
  | writing => cases ht

theorem nextPos_waits (hi : i < 8) : Waits (nextPos pre b i).1 b (nextPos pre b i).2
    (if i + 1 < 8 then .suspended (i + 1) else .writing) (Lib.low (i + 1) b) pre := by
  unfold nextPos
  split
  · rename_i hlt
    exact .suspended hlt
  · obtain rfl : i = 7 := by omega
    rw [Lib.low_self b]
    exact .writing rfl

/-! ## One step -/

/-- While nothing is pending for the parent it can only write. -/
theorem Waits.step_quiet {act : Act} (h : Waits pre b i s.parent s.curLetter s.out)
    (hquiet : ∀ sig, s.pending sig = false) (hact : ∀ ok, act ≠ .child ok)
    (ht : step s act = some t) :
    ∃ pc c out, t = { s with parent := pc, curLetter := c, out := out } ∧
      Waits pre b i pc c out := by
  cases act with
  | parent => exact h.parent ht
  | deliver sig =>
    have hpend := (h.deliver ht).1
    rw [hquiet sig] at hpend
    cases hpend
  | child ok => exact absurd rfl (hact ok)

/-- The child's steps, from each entry of the list. -/
theorem Stage.child {ok : Bool} (hs : Stage file s) (hharm : Harmless s (.child ok))
    (ht : childStep s ok = some t) : Stage file t := by
  cases hs with
  | opening h =>
    cases ok with
    | true =>
      cases ht
      exact .reading h rfl
    | false =>
      obtain ⟨rfl, -⟩ := hharm rfl
      cases ht
      exact .ended h
  | @reading pc c l bit out pre rest h hfile =>
    cases ok with
    | true =>
      cases rest with
      | nil =>
        rw [List.append_nil] at hfile
        cases ht
        exact .closing (hfile ▸ h)
      | cons b post =>
        cases ht
        exact .sending (h.zero b) (by omega) hfile
    | false =>
      obtain ⟨hrest, -⟩ := hharm rfl
      dsimp only at hrest
      subst hrest
      rw [List.append_nil] at hfile
      cases ht
      exact .ended (hfile ▸ h)
  | @sending pc c bit out pre b post i h hi hfile =>
    cases ok with
    | true =>
      simp only [childStep, if_true, bitOf_eq_zero_iff hi] at ht
      have hsent : Stage file ⟨pc, c, bit, 0, .suspended i, b, post, !b.getLsbD i, b.getLsbD i,
          false, false, out⟩ := .sent h hi hfile
      split at ht
      · rename_i hbit
        rw [hbit] at hsent
        cases ht
        exact hsent
      · rename_i hbit
        rw [Bool.eq_true_of_not_eq_false hbit] at hsent
        cases ht
        exact hsent
    | false =>
      obtain ⟨-, hpc⟩ := hharm rfl
      rcases hpc with hpc | hpc | hpc <;> cases hpc
  | sent | got | acking => simp [childStep] at ht
  | @acked pc c bit out pre b post i h hi hfile =>
    cases ok with
    | true =>
      simp only [childStep, and_self, if_true, Option.some.injEq] at ht
      subst ht
      unfold nextPos at h
      split
      · rename_i hlt
        rw [if_pos hlt] at h
        exact .sending h hlt hfile
      · rename_i hlt
        rw [if_neg hlt] at h
        exact .reading (h.zero 0) (by rw [hfile, List.append_assoc, List.singleton_append])
    | false => simp [childStep] at ht
  | closing h =>
    cases ht
    exact .ended h
  | ended | died | done => cases ht

/-- **One step along the list.** -/
theorem Stage.step {act : Act} (hs : Stage file s) (hharm : Harmless s act)
    (ht : Signal.step s act = some t) : Stage file t := by
  by_cases hact : ∃ ok, act = .child ok
  · obtain ⟨ok, rfl⟩ := hact
    exact hs.child hharm ht
  replace hact : ∀ ok, act ≠ .child ok := fun ok h => hact ⟨ok, h⟩
  cases hs with
  | opening h =>
    obtain ⟨pc, c, out, rfl, h⟩ := h.step_quiet (fun sig => by cases sig <;> rfl) hact ht
    exact .opening h
  | reading h hfile =>
    obtain ⟨pc, c, out, rfl, h⟩ := h.step_quiet (fun sig => by cases sig <;> rfl) hact ht
    exact .reading h hfile
  | sending h hi hfile =>
    obtain ⟨pc, c, out, rfl, h⟩ := h.step_quiet (fun sig => by cases sig <;> rfl) hact ht
    exact .sending h hi hfile
  | acked h hi hfile =>
    obtain ⟨pc, c, out, rfl, h⟩ := h.step_quiet (fun sig => by cases sig <;> rfl) hact ht
    exact .acked h hi hfile
  | closing h =>
    obtain ⟨pc, c, out, rfl, h⟩ := h.step_quiet (fun sig => by cases sig <;> rfl) hact ht
    exact .closing h
  | @sent pc c bit out pre b post i h hi hfile =>
    cases act with
    | parent =>
      obtain ⟨pc, c, out, rfl, h⟩ := h.parent ht
      exact .sent h hi hfile
    | deliver sig =>
      -- the signal is the bit
      obtain ⟨hpend, -, rfl, rfl, rfl⟩ := h.deliver ht
      have hgot : Stage file _ := .got hi hfile
      cases sig with
      | usr1 =>
        have hbit : b.getLsbD i = false := by simpa [State.pending] using hpend
        rw [hbit] at hgot
        simpa [State.handle, hbit] using hgot
      | usr2 =>
        have hbit : b.getLsbD i = true := hpend
        rw [hbit] at hgot
        simpa [State.handle, hbit] using hgot
      | chld => cases hpend
    | child ok => exact absurd rfl (hact ok)
  | @got pre b post i hi hfile =>
    cases act with
    | parent =>
      simp only [Signal.step, parentStep, ne_eq, not_true_eq_false, if_false,
        Option.some.injEq] at ht
      subst ht
      have hbit : (b.getLsbD i).toNat = 1 ↔ b.getLsbD i = true := by
        cases b.getLsbD i <;> simp
      simp only [hbit, low_step hi]
      exact .acking hi hfile
    | deliver sig =>
      rw [Signal.step, deliver_eq_none (by cases sig <;> rfl)] at ht
      cases ht
    | child ok => exact absurd rfl (hact ok)
  | @acking bit pre b post i hi hfile =>
    cases act with
    | parent =>
      cases ht
      exact .acked (nextPos_waits hi) hi hfile
    | deliver sig => cases ht
    | child ok => exact absurd rfl (hact ok)
  | @ended pc c l bit out code h =>
    cases act with
    | parent =>
      obtain ⟨pc, c, out, rfl, h⟩ := h.parent ht
      exact .ended h
    | deliver sig =>
      obtain ⟨hpend, -, rfl, rfl, rfl⟩ := h.deliver ht
      cases sig with
      | usr1 | usr2 => cases hpend
      | chld => exact .died
    | child ok => exact absurd rfl (hact ok)
  | died =>
    cases act with
    | parent =>
      cases ht
      exact .done
    | deliver sig =>
      rw [Signal.step, deliver_eq_none (by cases sig <;> rfl)] at ht
      cases ht
    | child ok => exact absurd rfl (hact ok)
  | done =>
    cases act with
    | parent | deliver => cases ht
    | child ok => exact absurd rfl (hact ok)

theorem Stage.run {acts : List Act} (hr : Lib.Run Signal.step Harmless (start file) acts s) :
    Stage file s := by
  refine hr.invariant ?_ fun s act t hs hharm ht => hs.step hharm ht
  have h : Waits [] (0 : Letter) 0 (.suspended 0) (Lib.low 0 0) [] := .suspended (by omega)
  rw [Lib.low_zero] at h
  exact .opening h

/-! ## Whole runs -/

/-- The run of a transfer in which every call of the child succeeds. -/
def NoFailure (_ : State) (act : Act) : Prop := act ≠ .child false

instance (s : State) (act : Act) : Decidable (NoFailure s act) :=
  inferInstanceAs (Decidable (act ≠ .child false))

/-- What holds at every moment of a run without failures. -/
structure Faithful (file : List Letter) (s : State) : Prop where
  written : s.out <+: file
  /-- two suspended processes are not both without a signal -/
  awake : ∀ i j, s.parent = .suspended i → s.child = .suspended j →
    s.usr1 = true ∨ s.usr2 = true ∨ s.chld = true ∨ s.ack = true
  /-- and a bit that is sent is the only one -/
  single : ¬(s.usr1 = true ∧ s.usr2 = true)
  complete : s.parent = .exited EXIT_SUCCESS → s.out = file

theorem Stage.out_prefix (hs : Stage file s) : s.out <+: file := by
  cases hs with
  | opening h => exact h.out_prefix.trans List.nil_prefix
  | reading h hfile | sending h hi hfile | sent h hi hfile =>
    exact h.out_prefix.trans (hfile ▸ List.prefix_append _ _)
  | got hi hfile | acking hi hfile => exact hfile ▸ List.prefix_append _ _
  | @acked pc c bit out pre b post i h hi hfile =>
    refine h.out_prefix.trans ?_
    unfold nextPos
    split
    · exact hfile ▸ List.prefix_append _ _
    · exact ⟨post, by rw [hfile, List.append_assoc, List.singleton_append]⟩
  | closing h | ended h => exact h.out_prefix
  | died | done => exact List.prefix_rfl

/-- A waiting parent has not ended. -/
theorem Waits.not_exited {code : Nat} (h : Waits pre b i (.exited code) c out) : False := by
  cases h

theorem Stage.complete (hs : Stage file s) (hexit : s.parent = .exited EXIT_SUCCESS) :
    s.out = file := by
  cases hs with
  | opening h | reading h | sending h | sent h | acked h | closing h | ended h =>
    cases hexit
    exact h.not_exited.elim
  | got | acking | died => cases hexit
  | done => rfl

theorem Stage.faithful (hs : Stage file s) : Faithful file s := by
  refine ⟨hs.out_prefix, fun i j hparent hchild => ?_, ?_, hs.complete⟩
  · cases hs with
    | opening | reading | sending | closing | ended | died | done => cases hchild
    | got | acking => cases hparent
    | @sent pc c bit out pre b post i h hi hfile =>
      cases hbit : b.getLsbD i
      · exact .inl rfl
      · exact .inr (.inl rfl)
    | acked => exact .inr (.inr (.inr rfl))
  · cases hs with
    | @sent pc c bit out pre b post i h hi hfile =>
      dsimp only
      cases b.getLsbD i <;> simp
    | opening | reading | sending | got | acking | acked | closing | ended | died | done => simp

/-- **The transfer.** For every file and every interleaving without a failing call. `Faithful` says
    that the parent has written a beginning of the file, that the two do not wait for each other,
    that no two bits are under way at once, and that success means the whole file. -/
theorem transfer_run {acts : List Act} (hr : Lib.Run step NoFailure (start file) acts s) :
    Faithful file s :=
  (Stage.run (hr.mono fun _ _ hno hact => absurd hact hno)).faithful

/-- **Success is complete**, where the child only fails after everything is sent and answered. The
    parent looks at `WIFEXITED` only, which an `exit (EXIT_FAILURE)` satisfies as well; what the
    condition leaves are the failures that come too late to do harm. -/
theorem success_complete {acts : List Act} (hr : Lib.Run step Harmless (start file) acts s)
    (hexit : s.parent = .exited EXIT_SUCCESS) : s.out = file :=
  (Stage.run hr).complete hexit

/-! ## A failure before the end -/

/-- After the end of the child, however it came, a waiting parent reports success. -/
theorem Waits.exit {code : Nat} (h : Waits pre b i s.parent s.curLetter s.out)
    (hchild : s.child = .exited code) (hpend : s.chld = true) (hdied : s.IS_CHILD_DIED = 0) :
    ∃ acts t, Lib.Run step Lib.Always s acts t ∧ t.parent = .exited EXIT_SUCCESS ∧
      t.out = pre := by
  obtain ⟨pc, c, bit, died, child, l, rest, usr1, usr2, chld, ack, out⟩ := s
  dsimp only at hchild hpend hdied
  subst hchild hpend hdied
  cases h with
  | suspended hi =>
    refine ⟨[.deliver .chld, .parent], _, .cons trivial rfl (.cons trivial rfl .nil), rfl, rfl⟩
  | writing hpre =>
    refine ⟨[.parent, .deliver .chld, .parent], _,
      .cons trivial rfl (.cons trivial rfl (.cons trivial rfl .nil)), rfl, hpre⟩

/-- **The condition is exact**: a failure it excludes can end in a success with part of the file
    missing. -/
theorem harm (hs : Stage file s) (hharm : ¬Harmless s (.child false))
    (ht : childStep s false = some t) : ∃ acts u, Lib.Run step Lib.Always t acts u ∧
      u.parent = .exited EXIT_SUCCESS ∧ u.out ≠ file := by
  cases hs with
  | opening h =>
    cases ht
    obtain ⟨acts, u, hr, hexit, hout⟩ := h.exit (s := ⟨_, _, _, 0, .exited EXIT_FAILURE, _, file,
      false, false, true, false, _⟩) rfl rfl rfl
    refine ⟨acts, u, hr, hexit, fun hfile => hharm fun _ => ⟨?_, .inl rfl⟩⟩
    exact hfile.symm.trans hout
  | @reading pc c l bit out pre rest h hfile =>
    cases ht
    obtain ⟨acts, u, hr, hexit, hout⟩ := h.exit (s := ⟨_, _, _, 0, .exited EXIT_FAILURE, _, rest,
      false, false, true, false, _⟩) rfl rfl rfl
    refine ⟨acts, u, hr, hexit, fun hall => hharm fun _ => ⟨?_, .inr (.inl rfl)⟩⟩
    rw [hfile, hout] at hall
    simpa using hall.symm
  | @sending pc c bit out pre b post i h hi hfile =>
    cases ht
    obtain ⟨acts, u, hr, hexit, hout⟩ := h.exit (s := ⟨_, _, _, 0, .exited EXIT_FAILURE, _, post,
      false, false, true, false, _⟩) rfl rfl rfl
    refine ⟨acts, u, hr, hexit, fun hall => ?_⟩
    rw [hfile, hout] at hall
    simp at hall
  | closing h => exact absurd (fun _ => ⟨rfl, .inr (.inr rfl)⟩) hharm
  | sent | got | acking | acked | ended | died | done => simp [childStep] at ht

end

/-- The child has opened the file, read the letter 1 and sent its first bit. -/
theorem transfer_one : Faithful [1]
    ⟨.suspended 0, 0, 0, 0, .suspended 0, 1, [], false, true, false, false, []⟩ := by
  have hok : ∀ s, NoFailure s (.child true) := fun _ h => by cases h
  exact transfer_run (.snoc (.snoc (.snoc .nil (hok _) rfl) (hok _) rfl) (hok _) (by decide))

/-- One bit, taken by both sides: the child's `kill`, the parent's handler, its `cur_letter` and its
    answer, and the child's return from `sigsuspend`. -/
def bitActs (sig : Sig) : List Act :=
  [.child true, .deliver sig, .parent, .parent, .child true]

/-- The child opens the file and reads the letter 65 = 0b01000001, the two send it over, lowest bit
    first, and the parent writes it. -/
def letterActs : List Act :=
  [.child true, .child true] ++
    [.usr2, .usr1, .usr1, .usr1, .usr1, .usr1, .usr2, .usr1].flatMap bitActs ++ [.parent]

/-- The `read ()` at the end of the file fails: the child exits with `EXIT_FAILURE`, and the letter
    is there. -/
theorem success_complete_letter : ∃ acts s, Lib.Run step Harmless (start [65]) acts s ∧
    s.child = .exited EXIT_FAILURE ∧ s.parent = .exited EXIT_SUCCESS ∧ s.out = [65] := by
  have hrun : (Lib.exec step Harmless (letterActs ++ [.child false, .deliver .chld, .parent])
      (start [65])).any (fun s => s.child = .exited EXIT_FAILURE ∧
        s.parent = .exited EXIT_SUCCESS) = true := by decide
  obtain ⟨s, hr, hs⟩ := Lib.Run.exists_of_exec hrun
  obtain ⟨hchild, hexit⟩ := of_decide_eq_true hs
  exact ⟨_, s, hr, hchild, hexit, success_complete hr hexit⟩

/-- A file of one letter that cannot be opened: the parent reports success and has written
    nothing. -/
theorem failure_reported_as_success : ¬∀ (file : List Letter) (acts : List Act) (s : State),
    Lib.Run step Lib.Always (start file) acts s → s.parent = .exited EXIT_SUCCESS →
      s.out = file := by
  intro hall
  have hrun : Lib.exec step Lib.Always [.child false, .deliver .chld, .parent] (start [65]) =
      some ⟨.exited 0, 0, 0, 1, .exited 1, 0, [65], false, false, false, false, []⟩ := by decide
  exact absurd (hall [65] _ _ (.of_exec hrun) rfl) (by decide)

end CompTech.Signal
