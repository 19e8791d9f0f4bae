import CompTech.Signal.Transfer

/-!
# The transfer ends

A letter costs 42 steps: it is read, each of its bits is sent, delivered, put down, answered and
the answer taken, and it is written. `State.left` counts what is left to do, in the loops and at
the end. A step takes one from it (`Stage.left`), or more if it is a failure of the child
(`left_fail`), and the parent can go on until it has exited (`Reached.goesOn`): no order of steps
leaves the two processes waiting for each other, and none goes on for ever.

`Broken` lists the states behind a failure of the child that `Stage` does not admit. There is no
way out of them but the success of the parent.

With failures admitted there are two lists, `Stage` and `Broken`, and a run crosses from the first
to the second once (`Stage.fail`). The measure is one function on states, and falls in both.
-/

namespace CompTech.Signal

open Lib

variable {file pre out : List Letter} {b c : Letter} {i : Nat} {pc : ParentPc} {s t : State}
  {act : Act}

/-! ## What is left to do

A bit that is under way costs the same steps in every order: its `kill`, the delivery, the parent's
two steps and the child's return.

The sum is over what the child has not sent, the bit that is under way and the parent's last steps.
The number of steps of a bit does not depend on the order in which the signals and the two processes
come, and that is why it can be read off one state (`State.bitLeft`) although two processes share
the work. -/

/-- From the current bit to its answer. -/
def State.bitLeft (s : State) (i : Nat) : Nat :=
  if s.ack then if i < 7 then 2 else 1
  else
    match s.parent with
    | .acking _ => 3
    | .woken _ => 4
    | .suspended _ | .writing | .exited _ => 5

/-- From the child's program counter to its exit, with the signals and the letters in between. -/
def State.childLeft (s : State) : Nat :=
  match s.child with
  | .opening => 42 * s.rest.length + 3
  | .reading => 42 * s.rest.length + 2
  | .sending i => 42 * s.rest.length + 5 * (8 - i) + 3
  | .suspended i => 42 * s.rest.length + 5 * (7 - i) + s.bitLeft i + 2
  | .closing => 1
  | .exited _ => 0

/-- The last letter, and the two steps behind the child's exit. -/
def ParentPc.left (pc : ParentPc) (died : Nat) : Nat :=
  match pc with
  | .exited _ => 0
  | .writing => if died = 0 then 3 else 2
  | .suspended _ | .woken _ | .acking _ => if died = 0 then 2 else 1

/-- The steps that are left to both. -/
def State.left (s : State) : Nat := s.childLeft + s.parent.left s.IS_CHILD_DIED

theorem left_start : (start file).left = 42 * file.length + 5 := rfl

/-- A letter that is written does not matter to the child. -/
theorem left_writing (hpc : s.parent = .writing) (ht : parentStep s = some t) :
    s.left = t.left + 1 := by
  obtain ⟨pc, c, bit, died, child, l, rest, usr1, usr2, chld, ack, out⟩ := s
  dsimp only at hpc
  subst hpc
  cases ht
  have hchild : ∀ pc c out, pc = .writing ∨ pc = .suspended 0 →
      (⟨pc, c, bit, died, child, l, rest, usr1, usr2, chld, ack, out⟩ : State).childLeft =
      (⟨.writing, 0, bit, died, child, l, rest, usr1, usr2, chld, ack, []⟩ : State).childLeft := by
    rintro pc c out (rfl | rfl) <;> cases child <;> rfl
  simp only [State.left, hchild _ _ _ (.inl rfl), hchild _ _ _ (.inr rfl), ParentPc.left]
  split <;> omega

theorem Waits.left (h : Waits pre b i s.parent s.curLetter s.out) (ht : parentStep s = some t) :
    s.left = t.left + 1 := by
  obtain ⟨pc, c, bit, died, child, l, rest, usr1, usr2, chld, ack, out⟩ := s
  cases h with
  | suspended => cases ht
  | writing => exact left_writing rfl ht

/-- A call that fails is the child's last. -/
theorem childStep_false (ht : childStep s false = some t) :
    t = s.childExit EXIT_FAILURE ∧ 1 ≤ s.childLeft := by
  unfold State.childLeft
  unfold childStep at ht
  cases hchild : s.child with
  | opening | reading | sending | closing =>
    simp only [hchild, Bool.false_eq_true, if_false, Option.some.injEq] at ht
    exact ⟨ht.symm, by simp⟩
  | suspended | exited => simp [hchild] at ht

theorem left_fail (ht : childStep s false = some t) : t.left < s.left := by
  obtain ⟨rfl, hpos⟩ := childStep_false ht
  show 0 + s.parent.left s.IS_CHILD_DIED < s.childLeft + s.parent.left s.IS_CHILD_DIED
  omega

theorem Waits.left_send {bit : Nat} {post : List Letter} (usr1 usr2 : Bool)
    (h : Waits pre b i pc c out) (hi : i < 8) :
    State.left ⟨pc, c, bit, 0, .sending i, b, post, false, false, false, false, out⟩ =
      State.left ⟨pc, c, bit, 0, .suspended i, b, post, usr1, usr2, false, false, out⟩ + 1 := by
  cases h with
  | suspended | writing =>
    simp only [State.left, State.childLeft, State.bitLeft, Bool.false_eq_true, if_false]
    omega

theorem Stage.left_child (hs : Stage file s) (ht : childStep s true = some t) :
    s.left = t.left + 1 := by
  cases hs with
  | opening | closing =>
    simp only [childStep, if_true, Option.some.injEq] at ht
    subst ht
    simp only [State.left, State.childLeft, State.childExit]
    omega
  | @reading _ _ _ _ _ _ rest =>
    cases rest with
    | nil =>
      cases ht
      simp only [State.left, State.childLeft, List.length_nil]
      omega
    | cons b post =>
      cases ht
      simp only [State.left, State.childLeft, List.length_cons]
      omega
  | sending h hi hfile =>
    simp only [childStep, if_true] at ht
    split at ht
    · exact Option.some_inj.mp ht ▸ h.left_send true false hi
    · exact Option.some_inj.mp ht ▸ h.left_send false true hi
  | sent | got | acking => simp [childStep] at ht
  | @acked _ _ _ _ _ _ _ i h hi hfile =>
    simp only [childStep, and_self, if_true, Option.some.injEq] at ht
    subst ht
    simp only [State.left, State.childLeft, State.bitLeft, if_true]
    by_cases hlt : i < 7
    · rw [if_pos hlt, if_pos (show i + 1 < 8 by omega)]
      dsimp only
      omega
    · rw [if_neg hlt, if_neg (show ¬i + 1 < 8 by omega)]
      dsimp only
      omega
  | ended | died | done => cases ht

/-- **Every step counts**, and no order of the steps is shorter. -/
theorem Stage.left (hs : Stage file s) (hact : act ≠ .child false)
    (ht : Signal.step s act = some t) : s.left = t.left + 1 := by
  by_cases hchild : act = .child true
  · subst hchild
    exact hs.left_child ht
  replace hact : ∀ ok, act ≠ .child ok := fun ok => by cases ok <;> assumption
  cases hs with
  | opening h | reading h | sending h | acked h | closing h =>
    cases act with
    | parent => exact h.left ht
    | deliver sig =>
      have hpend := (h.deliver (s := ⟨_, _, _, _, _, _, _, _, _, _, _, _⟩) ht).1
      cases sig <;> cases hpend
    | child ok => exact absurd rfl (hact ok)
  | sent h hi hfile =>
    cases act with
    | parent => exact h.left ht
    | deliver sig =>
      obtain ⟨hpend, hpc, -, -, rfl⟩ :=
        h.deliver (s := ⟨_, _, _, _, _, _, _, _, _, _, _, _⟩) ht
      dsimp only at hpc
      subst hpc
      cases sig with
      | usr1 | usr2 =>
        simp only [State.handle, State.left, State.childLeft, State.bitLeft, ParentPc.left,
          Bool.false_eq_true, if_false]
        omega
      | chld => cases hpend
    | child ok => exact absurd rfl (hact ok)
  | got hi hfile =>
    cases act with
    | parent =>
      simp only [Signal.step, parentStep, ne_eq, not_true_eq_false, if_false,
        Option.some.injEq] at ht
      subst ht
      simp only [State.left, State.childLeft, State.bitLeft, ParentPc.left,
        Bool.false_eq_true, if_false]
      omega
    | deliver sig =>
      rw [Signal.step, deliver_eq_none (by cases sig <;> rfl)] at ht
      cases ht
    | child ok => exact absurd rfl (hact ok)
  | @acking _ _ _ _ i hi hfile =>
    cases act with
    | parent =>
      cases ht
      simp only [State.left, State.childLeft, State.bitLeft, Bool.false_eq_true, if_false, if_true]
      by_cases hlt : i < 7
      · rw [if_pos hlt, if_pos (show i + 1 < 8 by omega)]
        simp only [ParentPc.left, if_true]
      · rw [if_neg hlt, if_neg (show ¬i + 1 < 8 by omega)]
        simp only [ParentPc.left, if_true]
    | deliver sig => cases ht
    | child ok => exact absurd rfl (hact ok)
  | ended h =>
    cases act with
    | parent => exact h.left ht
    | deliver sig =>
      obtain ⟨hpend, hpc, -, -, rfl⟩ :=
        h.deliver (s := ⟨_, _, _, _, _, _, _, _, _, _, _, _⟩) ht
      dsimp only at hpc
      subst hpc
      cases sig with
      | usr1 | usr2 => cases hpend
      | chld => rfl
    | child ok => exact absurd rfl (hact ok)
  | died =>
    cases act with
    | parent =>
      cases ht
      rfl
    | deliver sig =>
      rw [Signal.step, deliver_eq_none (by cases sig <;> rfl)] at ht
      cases ht
    | child ok => exact absurd rfl (hact ok)
  | done =>
    cases act with
    | parent | deliver => cases ht
    | child ok => exact absurd rfl (hact ok)

/-! ## Behind a failure

The child is gone and the parent does not know with what code; it reports success. -/

/-- The child has failed; the parent has written `pre`. -/
inductive Broken (file : List Letter) : State → Prop
  | ended {pc c l bit out code pre b i rest} (h : Waits pre b i pc c out) (hpre : pre <+: file) :
      Broken file ⟨pc, c, bit, 0, .exited code, l, rest, false, false, true, false, out⟩
  | died {c l bit code pre i rest} (hpre : pre <+: file) :
      Broken file ⟨.woken i, c, bit, 1, .exited code, l, rest, false, false, false, false, pre⟩
  | done {c l bit code pre rest} (hpre : pre <+: file) :
      Broken file
        ⟨.exited EXIT_SUCCESS, c, bit, 1, .exited code, l, rest, false, false, false, false, pre⟩

/-- A failure of the child, from each entry of the list: what was written is a beginning of the
    file. -/
theorem Stage.fail (hs : Stage file s) (ht : childStep s false = some t) : Broken file t := by
  obtain ⟨rfl, -⟩ := childStep_false ht
  cases hs with
  | opening h => exact .ended h List.nil_prefix
  | reading h hfile | sending h hi hfile => exact .ended h (hfile ▸ List.prefix_append _ _)
  | closing h => exact .ended h List.prefix_rfl
  | sent | got | acking | acked | ended | died | done => simp [childStep] at ht

theorem Broken.step (hs : Broken file s) (ht : Signal.step s act = some t) :
    Broken file t ∧ s.left = t.left + 1 := by
  cases hs with
  | ended h hpre =>
    cases act with
    | parent =>
      have hleft := h.left ht
      obtain ⟨pc, c, out, rfl, h⟩ := h.parent ht
      exact ⟨.ended h hpre, hleft⟩
    | deliver sig =>
      obtain ⟨hpend, hpc, -, rfl, rfl⟩ :=
        h.deliver (s := ⟨_, _, _, _, _, _, _, _, _, _, _, _⟩) ht
      dsimp only at hpc
      subst hpc
      cases sig with
      | usr1 | usr2 => cases hpend
      | chld => exact ⟨.died hpre, rfl⟩
    | child ok => cases ht
  | died hpre =>
    cases act with
    | parent =>
      cases ht
      exact ⟨.done hpre, rfl⟩
    | deliver sig =>
      rw [Signal.step, deliver_eq_none (by cases sig <;> rfl)] at ht
      cases ht
    | child ok => cases ht
  | done => cases act <;> cases ht

theorem Broken.out_prefix (hs : Broken file s) : s.out <+: file := by
  cases hs with
  | ended h hpre => exact h.out_prefix.trans hpre
  | died hpre | done hpre => exact hpre

/-! ## Every run -/

/-- A state of an arbitrary run. -/
def Reached (file : List Letter) (s : State) : Prop := Stage file s ∨ Broken file s

theorem Reached.step (hs : Reached file s) (ht : Signal.step s act = some t) :
    Reached file t ∧ t.left < s.left := by
  rcases hs with hs | hs
  · by_cases hact : act = .child false
    · subst hact
      exact ⟨.inr (hs.fail ht), left_fail ht⟩
    · have hleft := hs.left hact ht
      exact ⟨.inl (hs.step (fun h => absurd h hact) ht), by omega⟩
  · obtain ⟨hnext, hleft⟩ := hs.step ht
    exact ⟨.inr hnext, by omega⟩

theorem Reached.out_prefix (hs : Reached file s) : s.out <+: file :=
  hs.elim Stage.out_prefix Broken.out_prefix

/-- A waiting parent writes, or it takes the signal that is pending. -/
theorem Waits.goesOn (sig : Sig) (h : Waits pre b i s.parent s.curLetter s.out)
    (hpend : s.pending sig = true) : ∃ act t, act ≠ .child false ∧ Signal.step s act = some t := by
  obtain ⟨pc, c, bit, died, child, l, rest, usr1, usr2, chld, ack, out⟩ := s
  cases h with
  | suspended => exact ⟨.deliver sig, _, by simp, if_pos hpend⟩
  | writing => exact ⟨.parent, _, by simp, rfl⟩

/-- **No deadlock.** Somebody can go on, and without a failure. -/
theorem Reached.goesOn (hs : Reached file s) (hend : s.parent ≠ .exited EXIT_SUCCESS) :
    ∃ act t, act ≠ .child false ∧ Signal.step s act = some t := by
  rcases hs with hs | hs
  · cases hs with
    | opening | closing => exact ⟨.child true, _, by simp, rfl⟩
    | @reading _ _ _ _ _ _ rest =>
      cases rest with
      | nil | cons => exact ⟨.child true, _, by simp, rfl⟩
    | @sending _ _ _ _ _ b _ i =>
      by_cases hbit : bitOf (maskOf i) b = 0
      · exact ⟨.child true, _, by simp, if_pos hbit⟩
      · exact ⟨.child true, _, by simp, if_neg hbit⟩
    | @sent _ _ _ _ _ b _ i h =>
      cases hbit : b.getLsbD i with
      | false => exact h.goesOn .usr1 (s := ⟨_, _, _, _, _, _, _, _, _, _, _, _⟩) rfl
      | true => exact h.goesOn .usr2 (s := ⟨_, _, _, _, _, _, _, _, _, _, _, _⟩) rfl
    | got | acking | died => exact ⟨.parent, _, by simp, rfl⟩
    | acked => exact ⟨.child true, _, by simp, rfl⟩
    | ended h => exact h.goesOn .chld (s := ⟨_, _, _, _, _, _, _, _, _, _, _, _⟩) rfl
    | done => exact absurd rfl hend
  · cases hs with
    | ended h => exact h.goesOn .chld (s := ⟨_, _, _, _, _, _, _, _, _, _, _, _⟩) rfl
    | died => exact ⟨.parent, _, by simp, rfl⟩
    | done => exact absurd rfl hend

theorem Reached.exit_code (hs : Reached file s) {code : Nat} (hexit : s.parent = .exited code) :
    code = EXIT_SUCCESS := by
  rcases hs with hs | hs
  · cases hs with
    | opening h | reading h | sending h | sent h | acked h | closing h | ended h =>
      cases hexit
      exact h.not_exited.elim
    | got | acking | died => cases hexit
    | done =>
      cases hexit
      rfl
  · cases hs with
    | ended h =>
      cases hexit
      exact h.not_exited.elim
    | died => cases hexit
    | done =>
      cases hexit
      rfl

/-- Behind the parent's exit there is nothing left. -/
theorem Reached.left_exited (hs : Reached file s) (hexit : s.parent = .exited EXIT_SUCCESS) :
    s.left = 0 := by
  rcases hs with hs | hs
  · cases hs with
    | opening h | reading h | sending h | sent h | acked h | closing h | ended h =>
      cases hexit
      exact h.not_exited.elim
    | got | acking | died => cases hexit
    | done => rfl
  · cases hs with
    | ended h =>
      cases hexit
      exact h.not_exited.elim
    | died => cases hexit
    | done => rfl

section Runs

variable {acts : List Act}

theorem Reached.run (hr : Run Signal.step Always (start file) acts s) : Reached file s :=
  hr.invariant (.inl (Stage.run .nil)) fun _ _ _ hs _ ht => (hs.step ht).1

/-- From wherever it is, the transfer comes to the parent's exit, and nothing more has to fail. -/
theorem Reached.exists_exit (hs : Reached file s) :
    ∃ acts t, Run Signal.step NoFailure s acts t ∧ t.parent = .exited EXIT_SUCCESS := by
  obtain ⟨acts, t, hr, -, hexit⟩ := Run.exists_end hs
    (fun _ _ _ hs _ ht => hs.step ht) fun _ hs hend => hs.goesOn hend
  exact ⟨acts, t, hr, hexit⟩

/-- **The parent always ends, and always with success.** Whatever calls of the child fail and in
    whatever order the two run: 42 steps a letter and 5 more are the most there are, what is on the
    screen is the beginning of the file, and the only end is the parent's `EXIT_SUCCESS`. -/
theorem transfer_ends (hr : Run step Always (start file) acts s) :
    acts.length ≤ 42 * file.length + 5 ∧ s.out <+: file ∧
      (∀ code, s.parent = .exited code → code = EXIT_SUCCESS) ∧
      ((∀ act, step s act = none) ↔ s.parent = .exited EXIT_SUCCESS) ∧
      ∃ acts' t, Run step NoFailure s acts' t ∧ t.parent = .exited EXIT_SUCCESS := by
  have hs := Reached.run hr
  have hlength := hr.length_le (.inl (Stage.run .nil)) fun _ _ _ hs _ ht => Reached.step hs ht
  refine ⟨left_start ▸ hlength, hs.out_prefix, fun _ => hs.exit_code, ⟨fun hstuck => ?_,
    fun hexit act => ?_⟩, hs.exists_exit⟩
  · by_contra hend
    obtain ⟨act, t, -, ht⟩ := hs.goesOn hend
    rw [hstuck act] at ht
    cases ht
  · cases ht : step s act with
    | none => rfl
    | some t =>
      have hless := (hs.step ht).2
      rw [hs.left_exited hexit] at hless
      exact absurd hless (Nat.not_lt_zero _)

/-! ## Runs without a failure -/

theorem child_parentStep (ht : parentStep s = some t) : t.child = s.child := by
  unfold parentStep at ht
  split at ht
  · cases ht
  · split at ht <;> cases ht <;> rfl
  · cases ht
    rfl
  · cases ht
    rfl
  · cases ht

theorem child_handle (pc : ParentPc) (sig : Sig) : (s.handle pc sig).child = s.child := by
  cases sig with
  | usr1 | usr2 => rfl
  | chld =>
    simp only [State.handle]
    split <;> rfl

theorem child_deliver {sig : Sig} (ht : deliver s sig = some t) : t.child = s.child := by
  unfold deliver at ht
  split at ht
  · obtain ⟨-, ht⟩ := Option.ite_none_right_eq_some.mp ht
    cases ht
    exact child_handle _ sig
  · obtain ⟨-, ht⟩ := Option.ite_none_right_eq_some.mp ht
    cases ht
    exact child_handle _ sig
  · cases ht
  · cases ht
  · cases ht

/-- The one exit of the loops is behind `close`. -/
theorem exit_childStep (ht : childStep s true = some t) {code : Nat}
    (hcode : t.child = .exited code) : code = EXIT_SUCCESS := by
  unfold childStep at ht
  split at ht
  · cases ht
    cases hcode
  · simp only [if_true] at ht
    split at ht <;> cases ht <;> cases hcode
  · simp only [if_true] at ht
    split at ht <;> cases ht <;> cases hcode
  · obtain ⟨-, ht⟩ := Option.ite_none_right_eq_some.mp ht
    split at ht <;> cases ht <;> cases hcode
  · cases ht
    cases hcode
    rfl
  · cases ht

/-- The child has not failed. -/
def State.Unfailed (s : State) : Prop := ∀ code, s.child = .exited code → code = EXIT_SUCCESS

theorem Unfailed.run (hr : Run Signal.step NoFailure (start file) acts s) : s.Unfailed := by
  have hstart : (start file).Unfailed := by
    intro code h
    cases h
  refine hr.invariant hstart ?_
  intro s act t hs hact ht code hcode
  cases act with
  | parent => exact hs code (child_parentStep ht ▸ hcode)
  | deliver sig => exact hs code (child_deliver ht ▸ hcode)
  | child ok =>
    cases ok with
    | false => exact absurd rfl hact
    | true => exact exit_childStep ht hcode

theorem Stage.noFailure (hr : Run Signal.step NoFailure (start file) acts s) : Stage file s :=
  Stage.run (hr.mono fun _ _ hno hact => absurd hact hno)

/-- **Without a failure the file arrives**, in the same number of steps whatever their order. -/
theorem transfer_completes (hr : Run step NoFailure (start file) acts s) :
    (s.parent = .exited EXIT_SUCCESS ↔ acts.length = 42 * file.length + 5) ∧
      (s.parent = .exited EXIT_SUCCESS → s.out = file ∧ s.Unfailed) ∧
      ∃ acts' t, Run step NoFailure (start file) (acts ++ acts') t ∧
        t.parent = .exited EXIT_SUCCESS ∧ t.out = file := by
  have hs := Stage.noFailure hr
  have hcount : acts.length + s.left = 42 * file.length + 5 :=
    Run.length_add_eq (Stage.run .nil : Stage file (start file)) (fun _ _ _ hs hact ht =>
      ⟨hs.step (fun h => absurd h hact) ht, hs.left hact ht⟩) hr
  refine ⟨⟨fun hexit => ?_, fun hlength => ?_⟩,
    fun hexit => ⟨hs.complete hexit, Unfailed.run hr⟩, ?_⟩
  · rw [← hcount, Reached.left_exited (.inl hs) hexit, Nat.add_zero]
  · by_contra hend
    obtain ⟨act, t, hact, ht⟩ := Reached.goesOn (.inl hs) hend
    have hless := hs.left hact ht
    omega
  · obtain ⟨acts', t, hr', hexit⟩ := Reached.exists_exit (.inl hs)
    have hall := hr.append hr'
    exact ⟨acts', t, hall, hexit, (Stage.noFailure hall).complete hexit⟩

end Runs

/-- A file of one letter that cannot be opened. -/
theorem transfer_ends_failed :
    (⟨.suspended 0, 0, 0, 0, .exited 1, 0, [65], false, false, true, false, []⟩ : State).out <+:
      [65] := by
  have hr : Run step Always (start [65]) [.child false] _ := .snoc .nil trivial rfl
  exact (transfer_ends hr).2.1

/-- A file of one letter, after all of its 47 steps: that they are 47 says that the parent has
    ended. -/
theorem transfer_completes_letter : ∃ acts s, Run step NoFailure (start [65]) acts s ∧
    s.parent = .exited EXIT_SUCCESS ∧ s.out = [65] ∧ s.Unfailed := by
  have hrun : (exec step NoFailure (letterActs ++ [.child true, .child true, .deliver .chld,
      .parent]) (start [65])).any (fun _ => true) = true := by decide
  obtain ⟨s, hr, -⟩ := Run.exists_of_exec hrun
  have hexit : s.parent = .exited EXIT_SUCCESS := (transfer_completes hr).1.mpr (by decide)
  exact ⟨_, s, hr, hexit, (transfer_completes hr).2.1 hexit⟩

end CompTech.Signal
