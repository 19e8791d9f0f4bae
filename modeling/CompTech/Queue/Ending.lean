import CompTech.Lib.Tables
import CompTech.Queue.Order

/-!
# The queue program ends

Somebody can always go on and every step leaves less to do (`State.left`), so the program comes to
its end; and since the message is at one place, nobody has a choice: `Stage.turn` names the one
process that can move.

`callStep` adds the calls that fail. A `msgsnd` or `msgrcv` that does — it may be interrupted —
makes its caller remove the queue and exit, and then all the others fail too (`Broken`). A `fork`
that does makes the parent exit alone, and the children that are there wait on an empty queue for
messages that nobody will send (`Orphaned`). Both are as far as it goes wrong: the numbers on the
screen are in order in every run.

The proof goes by lists of states, as in `Order`: `Stage` without a failure, `Orphaned` behind a
failed `fork`, `Broken` behind a removed queue. Every kind of step has a lemma for each list that it
may leave, and `Reached` is their union.

The numbers. A child costs its `fork`, its three calls and two calls of the parent, one to post and
one to collect; with the ends of the parent's two loops and the removal of the queue that is the
number of `left_start`. Without a failure each step takes one from it and no two steps are possible
in one state, so that is the length of the complete run, whatever the capacity of the queue.
-/

namespace CompTech.Queue

open Lib

variable {cap n m i k : Nat} {pc : ChildPc} {s t : State} {act : Act}

/-! ## What is left to do

One number for all processes. Without a failure every step takes exactly one from it, which is why
all complete runs have the same length.

The capacity does not come in, if it is not 0. A `msgsnd` waits only on a full queue, and there is
never more than one message in it; what could stop the program is a message that nobody waits for,
and that is what `Stage` excludes. -/

/-- The calls that are left to a child. -/
def ChildPc.left : ChildPc → Nat
  | .waiting => 3
  | .printing => 2
  | .answering => 1
  | .done | .failed => 0

/-- A child that is not there yet has its own steps and its `fork`, a round the parent's two. -/
def ParentPc.left (n : Nat) : ParentPc → Nat
  | .forking j => 4 * (n + 1 - j) + 2 * n + 3
  | .posting j => 2 * (n + 1 - j) + 2
  | .collecting j => 2 * (n + 1 - j) + 1
  | .deleting => 1
  | .done | .failed => 0

/-- The calls that are left to all. A sum over the children, so a step of one of them changes one
    term (`left_childTo`). -/
def State.left (n : Nat) (s : State) : Nat :=
  s.parent.left n + (s.children.map (·.pc.left)).sum

theorem left_start : start.left n = 6 * n + 3 := by
  show 4 * (n + 1 - 1) + 2 * n + 3 + 0 = 6 * n + 3
  omega

theorem left_childTo {c : Child} (hc : s.children[k]? = some c) :
    (s.childTo k c pc).left n + c.pc.left = s.left n + pc.left := by
  have hsum : ((s.childTo k c pc).children.map (·.pc.left)).sum + c.pc.left =
      (s.children.map (·.pc.left)).sum + pc.left :=
    sum_map_set (fun c : Child => c.pc.left) hc
  have hparent : (s.childTo k c pc).parent = s.parent := rfl
  rw [State.left, State.left, hparent]
  omega

theorem left_parentStep (hj : ∀ j, s.parent = .collecting j → j ≤ n)
    (ht : parentStep cap n s = some t) :
    t.left n < s.left n ∧ (s.queue ≠ none → s.left n = t.left n + 1) := by
  obtain ⟨parent, children, queue, printed⟩ := s
  unfold State.left
  cases parent with
  | forking j =>
    simp only [parentStep] at ht
    split at ht <;> cases ht <;>
      simp only [ParentPc.left, ChildPc.left, List.map_append, List.map_cons, List.map_nil,
        List.sum_append, List.sum_cons, List.sum_nil] <;> omega
  | posting j =>
    simp only [parentStep] at ht
    split at ht
    · cases queue with
      | none =>
        cases ht
        exact ⟨by simp only [ParentPc.left]; omega, fun h => absurd rfl h⟩
      | some queue =>
        obtain ⟨queue', -, rfl⟩ := Option.map_eq_some_iff.mp ht
        simp only [ParentPc.left]
        omega
    · cases ht
      simp only [ParentPc.left]
      omega
  | collecting j =>
    have hle : j ≤ n := hj j rfl
    cases queue with
    | none =>
      cases ht
      exact ⟨by simp only [ParentPc.left]; omega, fun h => absurd rfl h⟩
    | some queue =>
      obtain ⟨queue', -, rfl⟩ := Option.map_eq_some_iff.mp ht
      simp only [ParentPc.left]
      omega
  | deleting =>
    cases ht
    simp only [ParentPc.left]
    omega
  | done | failed => cases ht

theorem left_childStep (ht : childStep cap n s k = some t) :
    t.left n < s.left n ∧ (s.queue ≠ none → s.left n = t.left n + 1) := by
  obtain ⟨c, hc, ht⟩ := Option.bind_eq_some_iff.mp ht
  have hmove : ∀ pc, (s.childTo k c pc).left n + c.pc.left = s.left n + pc.left :=
    fun pc => left_childTo hc
  cases hpc : c.pc with
  | waiting =>
    simp only [hpc] at ht hmove
    cases hqueue : s.queue with
    | none =>
      simp only [hqueue, Option.some.injEq] at ht
      subst ht
      have := hmove .failed
      simp only [ChildPc.left] at this
      exact ⟨by omega, fun h => absurd rfl h⟩
    | some queue =>
      simp only [hqueue] at ht
      obtain ⟨queue', -, rfl⟩ := Option.map_eq_some_iff.mp ht
      have := hmove .printing
      simp only [ChildPc.left] at this
      show (s.childTo k c .printing).left n < _ ∧ (_ → _ = (s.childTo k c .printing).left n + 1)
      omega
  | printing =>
    simp only [hpc, Option.some.injEq] at ht hmove
    subst ht
    have := hmove .answering
    simp only [ChildPc.left] at this
    show (s.childTo k c .answering).left n < _ ∧ (_ → _ = (s.childTo k c .answering).left n + 1)
    omega
  | answering =>
    simp only [hpc] at ht hmove
    cases hqueue : s.queue with
    | none =>
      simp only [hqueue, Option.some.injEq] at ht
      subst ht
      have := hmove .failed
      simp only [ChildPc.left] at this
      exact ⟨by omega, fun h => absurd rfl h⟩
    | some queue =>
      simp only [hqueue] at ht
      obtain ⟨queue', -, rfl⟩ := Option.map_eq_some_iff.mp ht
      have := hmove .done
      simp only [ChildPc.left] at this
      show (s.childTo k c .done).left n < _ ∧ (_ → _ = (s.childTo k c .done).left n + 1)
      omega
  | done | failed => simp [hpc] at ht

/-! ## Without a failure

`Stage` has a constructor for each place of the message, so a step is looked up in it. The turn is
the parent's when it forks, posts or collects an answer that is there, and the turn of the one child
whose message is under way otherwise. -/

theorem Stage.rounds (hs : Stage n s) : ∀ j, s.parent = .collecting j → j ≤ n := by
  intro j hj
  cases hs with
  | posted hi | taken hi | printed hi | answered hi =>
    cases hj
    exact hi
  | forking | posting | deleting | done => cases hj

theorem Stage.left (hs : Stage n s) (ht : Queue.step cap n s act = some t) :
    s.left n = t.left n + 1 := by
  have hqueue : s.queue ≠ none := by
    cases hs with
    | forking | posting | posted | taken | printed | answered | deleting => simp
    | done =>
      exfalso
      cases act with
      | parent => cases ht
      | child k =>
        rcases Nat.lt_or_ge k n with hlt | hge
        · simp [Queue.step, childStep, crew_getElem? hlt, show k + 1 < n + 1 by omega] at ht
        · simp [Queue.step, childStep, crew_getElem?_none hge] at ht
  cases act with
  | parent => exact (left_parentStep hs.rounds ht).2 hqueue
  | child k => exact (left_childStep ht).2 hqueue

/-- **One process at a time.** All others wait. The list of states names it: the parent while it
    forks and removes, and otherwise whoever has the message. -/
theorem Stage.turn (hs : Stage n s) : ∃ a, ∀ a', a' ≠ a → Queue.step cap n s a' = none := by
  have hchild : ∀ i, (∀ k, k ≠ i → childStep cap n s k = none) → parentStep cap n s = none →
      ∃ a, ∀ a', a' ≠ a → Queue.step cap n s a' = none := by
    intro i hothers hparent
    refine ⟨.child i, fun a' ha => ?_⟩
    cases a' with
    | parent => exact hparent
    | child k => exact hothers k fun h => ha (congrArg Act.child h)
  have hparent : (∀ k, childStep cap n s k = none) →
      ∃ a, ∀ a', a' ≠ a → Queue.step cap n s a' = none := by
    intro hothers
    refine ⟨.parent, fun a' ha => ?_⟩
    cases a' with
    | parent => exact absurd rfl ha
    | child k => exact hothers k
  cases hs with
  | forking hi => exact hparent fun k => crew_zero ▸ childStep_empty hi
  | posting | deleting => exact hparent fun k => childStep_empty (Nat.le_refl n)
  | @posted i hi =>
    refine hchild i (fun k hk => ?_) ?_
    · exact childStep_of_ne (fun j _ hj => msgrcv_of_ne (by omega)) (Nat.le_refl n) hk
    · simp [parentStep, msgrcv_of_ne (show n + 1 ≠ i + 1 by omega)]
  | @taken i hi | @printed i hi =>
    refine hchild i (fun k hk => ?_) ?_
    · exact childStep_of_ne (fun j _ _ => msgrcv_nil _) (Nat.le_refl n) hk
    · simp [parentStep, msgrcv_nil]
  | @answered i hi =>
    refine hparent fun k => ?_
    by_cases hk : k = i
    · subst hk
      simp [childStep, crew_getElem?_self hi]
    · exact childStep_of_ne (fun j _ _ => msgrcv_of_ne (by omega)) (Nat.le_refl n) hk
  | done =>
    refine hparent fun k => ?_
    rcases Nat.lt_or_ge k n with hlt | hge
    · simp [childStep, crew_getElem? hlt, show k + 1 < n + 1 by omega]
    · simp [childStep, crew_getElem?_none hge]

/-! ## The calls that fail

A failure is an event of its own beside the call that succeeds; `printf` and `exit` do not fail.

What a failure does is what the source's error branches do: print and exit, after `delete_msg` where
the queue has been created by then and the branch calls it. Where it is removed, every other process
finds it gone at its next call and fails as well, each for itself. -/

/-- `fork`, `msgsnd` or `msgrcv` fails. The last two are followed by `delete_msg`, whose `msgctl`
    works where there is a queue. -/
def parentFail (n : Nat) (s : State) : Option State :=
  match s.parent with
  | .forking iProc => if iProc < n + 1 then some { s with parent := .failed } else none
  | .posting i => if i < n + 1 then some { s with parent := .failed, queue := none } else none
  | .collecting _ => some { s with parent := .failed, queue := none }
  | .deleting | .done | .failed => none

/-- `msgrcv` or `msgsnd` of a child fails, and it removes the queue. -/
def childFail (s : State) (k : Nat) : Option State :=
  (s.children[k]?).bind fun c =>
    match c.pc with
    | .waiting | .answering => some { s.childTo k c .failed with queue := none }
    | .printing | .done | .failed => none

/-- A step, and whether its call succeeds. -/
def callStep (cap n : Nat) (s : State) : Act × Bool → Option State
  | (.parent, true) =>
    -- `delete_msg` of a queue that somebody has removed
    if s.parent = .deleting ∧ s.queue = none then some { s with parent := .failed }
    else parentStep cap n s
  | (.child k, true) => childStep cap n s k
  | (.parent, false) => parentFail n s
  | (.child k, false) => childFail s k

/-- Everybody has exited. -/
def Ended (s : State) : Prop :=
  (s.parent = .done ∨ s.parent = .failed) ∧ ∀ c ∈ s.children, c.pc = .done ∨ c.pc = .failed

/-- Child `k` looks for its own type, and nobody but number `i` has a message to print. -/
structure Lined (i : Nat) (l : List Child) : Prop where
  own : ∀ k c, l[k]? = some c → c.iProc = k + 1
  printing : ∀ k c, l[k]? = some c → c.pc = .printing → k = i

theorem Lined.set {l : List Child} {c : Child} (h : Lined i l) (hc : l[k]? = some c)
    (hpc : pc ≠ .printing) : Lined i (l.set k { c with pc := pc }) := by
  constructor
  · intro j d hd
    rw [List.getElem?_set] at hd
    split at hd
    · rename_i hj
      subst hj
      split at hd
      · cases hd
        exact h.own k c hc
      · cases hd
    · exact h.own j d hd
  · intro j d hd hprint
    rw [List.getElem?_set] at hd
    split at hd
    · split at hd
      · cases hd
        exact absurd hprint hpc
      · cases hd
    · exact h.printing j d hd hprint

/-- When number `i` has printed, nobody is printing. -/
theorem Lined.set_printed {l : List Child} {c : Child} (j : Nat) (h : Lined i l)
    (hc : l[i]? = some c) (hpc : pc ≠ .printing) : Lined j (l.set i { c with pc := pc }) := by
  have hset := h.set hc hpc
  refine ⟨hset.own, fun k d hd hprint => ?_⟩
  obtain rfl := hset.printing k d hd hprint
  have hlt : k < l.length := (List.getElem?_eq_some_iff.mp hc).1
  rw [List.getElem?_set_self hlt] at hd
  cases hd
  exact absurd hprint hpc

/-- A child that is new. -/
theorem Lined.snoc {l : List Child} (h : Lined i l) :
    Lined i (l ++ [⟨l.length + 1, .waiting⟩]) := by
  have hcases : ∀ k c, (l ++ [⟨l.length + 1, .waiting⟩])[k]? = some c →
      l[k]? = some c ∨ k = l.length ∧ c = ⟨l.length + 1, .waiting⟩ := by
    intro k c hc
    rcases Nat.lt_trichotomy k l.length with hlt | rfl | hgt
    · exact .inl (by rwa [List.getElem?_append_left hlt] at hc)
    · rw [List.getElem?_concat_length, Option.some.injEq] at hc
      exact .inr ⟨rfl, hc.symm⟩
    · rw [List.getElem?_eq_none (by simpa using hgt)] at hc
      cases hc
  constructor
  · intro k c hc
    rcases hcases k c hc with hc | ⟨rfl, rfl⟩
    · exact h.own k c hc
    · rfl
  · intro k c hc hprint
    rcases hcases k c hc with hc | ⟨rfl, rfl⟩
    · exact h.printing k c hc hprint
    · cases hprint

theorem crew_lined : Lined i (crew m (i + 1) pc) := by
  refine ⟨fun k c hc => crew_own hc, fun k c hc hprint => ?_⟩
  by_contra hk
  rcases Nat.lt_or_ge k m with hlt | hge
  · rw [crew_getElem? hlt, Option.some.injEq] at hc
    subst hc
    dsimp only at hprint
    split at hprint
    · cases hprint
    · rw [if_neg (by omega)] at hprint
      cases hprint
  · rw [crew_getElem?_none hge] at hc
    cases hc

theorem crew_lined_of_ne {j : Nat} (hpc : pc ≠ .printing) : Lined j (crew m i pc) := by
  refine ⟨fun k c hc => crew_own hc, fun k c hc hprint => ?_⟩
  rcases Nat.lt_or_ge k m with hlt | hge
  · rw [crew_getElem? hlt, Option.some.injEq] at hc
    subst hc
    dsimp only at hprint
    split at hprint
    · cases hprint
    · split at hprint
      · exact absurd hprint hpc
      · cases hprint
  · rw [crew_getElem?_none hge] at hc
    cases hc

/-- `fork` has failed. A `fork` that fails is the one error branch that does not call `delete_msg`,
    so the queue stays, and nobody is left to post to it. -/
inductive Orphaned (n : Nat) : State → Prop
  | mk {m : Nat} (hm : m < n) : Orphaned n ⟨.failed, crew m 0 .waiting, some [], []⟩

/-- Somebody has removed the queue. Nothing is said about where the children stand, but that only
    the one whose turn it was may still have its number to print (`Lined`): it has its message
    already and does not need the queue for that. -/
structure Broken (n : Nat) (s : State) : Prop where
  removed : s.queue = none
  pos : 1 ≤ n
  parent : s.parent = .forking (s.children.length + 1) ∨
    (∃ j < n, s.parent = .posting (j + 1) ∨ s.parent = .collecting (j + 1)) ∨ s.parent = .failed
  few : s.children.length ≤ n
  printed : ∃ i ≤ n, s.printed = numbers i ∧ Lined i s.children

/-- Nobody brings the queue back; the parent may go on forking. -/
theorem Broken.parentStep (hs : Broken n s) (ht : Queue.parentStep cap n s = some t) :
    Broken n t := by
  obtain ⟨parent, children, queue, printed⟩ := s
  obtain ⟨hremoved, hpos, hparent, hfew, i, hi, hprinted, hlined⟩ := hs
  dsimp only at hremoved hparent hfew hprinted hlined
  subst hremoved
  rcases hparent with rfl | ⟨j, hj, rfl | rfl⟩ | rfl
  · simp only [Queue.parentStep] at ht
    split at ht
    · cases ht
      have hlength : (children ++ [Child.mk (children.length + 1) .waiting]).length =
          children.length + 1 := by simp
      refine ⟨rfl, hpos, .inl ?_, ?_, i, hi, hprinted, hlined.snoc⟩
      · exact congrArg (ParentPc.forking <| · + 1) hlength.symm
      · exact hlength.trans_le (by omega)
    · cases ht
      exact ⟨rfl, hpos, .inr (.inl ⟨0, hpos, .inl rfl⟩), hfew, i, hi, hprinted, hlined⟩
  · simp only [Queue.parentStep, if_pos (show j + 1 < n + 1 by omega), Option.some.injEq] at ht
    subst ht
    exact ⟨rfl, hpos, .inr (.inr rfl), hfew, i, hi, hprinted, hlined⟩
  · cases ht
    exact ⟨rfl, hpos, .inr (.inr rfl), hfew, i, hi, hprinted, hlined⟩
  · cases ht

theorem Broken.childStep (hs : Broken n s) (ht : Queue.childStep cap n s k = some t) :
    Broken n t := by
  obtain ⟨parent, children, queue, printed⟩ := s
  obtain ⟨hremoved, hpos, hparent, hfew, i, hi, hprinted, hlined⟩ := hs
  dsimp only at hremoved hparent hfew hprinted hlined
  subst hremoved
  obtain ⟨c, hc, ht⟩ := Option.bind_eq_some_iff.mp ht
  dsimp only at hc
  cases hpc : c.pc with
  | waiting | answering =>
    simp only [hpc, Option.some.injEq] at ht
    subst ht
    exact ⟨rfl, hpos, by simpa [State.childTo] using hparent, by simpa [State.childTo] using hfew,
      i, hi, hprinted, hlined.set hc (by simp)⟩
  | printing =>
    simp only [hpc, Option.some.injEq] at ht
    subst ht
    obtain rfl := hlined.printing k c hc hpc
    have hlt : k < children.length := (List.getElem?_eq_some_iff.mp hc).1
    refine ⟨rfl, hpos, by simpa [State.childTo] using hparent, by simpa [State.childTo] using hfew,
      k + 1, by omega, ?_, hlined.set_printed _ hc (by simp)⟩
    show printed ++ [(k + 1, c.iProc)] = _
    rw [hprinted, hlined.own k c hc, numbers_succ]
  | done | failed => simp [hpc] at ht

theorem Broken.parentFail (hs : Broken n s) (ht : Queue.parentFail n s = some t) :
    Broken n t := by
  obtain ⟨parent, children, queue, printed⟩ := s
  obtain ⟨hremoved, hpos, hparent, hfew, hprinted⟩ := hs
  dsimp only at hremoved hparent hfew hprinted
  subst hremoved
  rcases hparent with rfl | ⟨j, hj, rfl | rfl⟩ | rfl
  · obtain ⟨-, ht⟩ := Option.ite_none_right_eq_some.mp ht
    cases ht
    exact ⟨rfl, hpos, .inr (.inr rfl), hfew, hprinted⟩
  · obtain ⟨-, ht⟩ := Option.ite_none_right_eq_some.mp ht
    cases ht
    exact ⟨rfl, hpos, .inr (.inr rfl), hfew, hprinted⟩
  · cases ht
    exact ⟨rfl, hpos, .inr (.inr rfl), hfew, hprinted⟩
  · cases ht

/-- A child that fails was waiting or answering, and the queue is gone. -/
theorem childFail_eq (ht : childFail s k = some t) : ∃ c, s.children[k]? = some c ∧
    (c.pc = .waiting ∨ c.pc = .answering) ∧
      t = { s.childTo k c .failed with queue := none } := by
  obtain ⟨c, hc, ht⟩ := Option.bind_eq_some_iff.mp ht
  cases hpc : c.pc with
  | waiting =>
    simp only [hpc, Option.some.injEq] at ht
    exact ⟨c, hc, .inl hpc, ht.symm⟩
  | answering =>
    simp only [hpc, Option.some.injEq] at ht
    exact ⟨c, hc, .inr hpc, ht.symm⟩
  | printing | done | failed => simp [hpc] at ht

theorem Broken.childFail (hs : Broken n s) (ht : Queue.childFail s k = some t) :
    Broken n t := by
  obtain ⟨c, hc, -, rfl⟩ := childFail_eq ht
  obtain ⟨-, hpos, hparent, hfew, i, hi, hprinted, hlined⟩ := hs
  exact ⟨rfl, hpos, by simpa [State.childTo] using hparent, by simpa [State.childTo] using hfew,
    i, hi, hprinted, hlined.set hc (by simp)⟩

/-- A `fork` that fails leaves orphans, the other calls break the queue. -/
theorem Stage.parentFail (hs : Stage n s) (ht : Queue.parentFail n s = some t) :
    Orphaned n t ∨ Broken n t := by
  cases hs with
  | @forking i hi =>
    obtain ⟨hlt, ht⟩ := Option.ite_none_right_eq_some.mp ht
    cases ht
    exact .inl (.mk (by omega))
  | @posting i hi =>
    obtain ⟨hlt, ht⟩ := Option.ite_none_right_eq_some.mp ht
    cases ht
    exact .inr ⟨rfl, by omega, .inr (.inr rfl), length_crew.le, i, hi, rfl, crew_lined⟩
  | @posted i hi | @taken i hi =>
    cases ht
    exact .inr ⟨rfl, by omega, .inr (.inr rfl), length_crew.le, i, hi.le, rfl, crew_lined⟩
  | @printed i hi | @answered i hi =>
    cases ht
    exact .inr ⟨rfl, by omega, .inr (.inr rfl), length_crew.le, i + 1, hi, rfl,
      crew_lined_of_ne (by simp)⟩
  | deleting | done => cases ht

/-- Before the last round is over there are children that can fail. -/
theorem Stage.childFail (hs : Stage n s) (ht : Queue.childFail s k = some t) : Broken n t := by
  obtain ⟨c, hc, hpc, rfl⟩ := childFail_eq ht
  cases hs with
  | @forking i hi =>
    have hk : k < i := by
      by_contra hge
      rw [crew_getElem?_none (by omega)] at hc
      cases hc
    refine ⟨rfl, by omega, .inl ?_, ?_, 0, Nat.zero_le n, rfl, ?_⟩
    · simp [State.childTo, length_crew]
    · simpa [State.childTo, length_crew] using hi
    · exact (crew_lined_of_ne (by simp)).set hc (by simp)
  | @posting i hi =>
    have hk : k < n := by
      by_contra hge
      rw [crew_getElem?_none (by omega)] at hc
      cases hc
    have hlt : i < n := by
      by_contra hge
      obtain rfl : i = n := by omega
      have hdone := crew_all_done c (List.mem_of_getElem? hc)
      simp [hdone] at hpc
    refine ⟨rfl, by omega, .inr (.inl ⟨i, hlt, .inl rfl⟩), ?_, i, hi, rfl,
      crew_lined.set hc (by simp)⟩
    simp [State.childTo, length_crew]
  | @posted i hi | @taken i hi =>
    refine ⟨rfl, by omega, .inr (.inl ⟨i, hi, .inr rfl⟩), ?_, i, hi.le, rfl,
      crew_lined.set hc (by simp)⟩
    simp [State.childTo, length_crew]
  | @printed i hi | @answered i hi =>
    refine ⟨rfl, by omega, .inr (.inl ⟨i, hi, .inr rfl⟩), ?_, i + 1, hi, rfl,
      (crew_lined_of_ne (by simp)).set hc (by simp)⟩
    simp [State.childTo, length_crew]
  | deleting | done =>
    have hdone := crew_all_done c (List.mem_of_getElem? hc)
    simp [hdone] at hpc

/-- A child that was not to be alone gives up too. -/
theorem Orphaned.childFail (hs : Orphaned n s) (ht : Queue.childFail s k = some t) :
    Broken n t := by
  obtain ⟨c, hc, -, rfl⟩ := childFail_eq ht
  cases hs with
  | @mk m hm =>
    refine ⟨rfl, by omega, .inr (.inr rfl), ?_, 0, Nat.zero_le n, rfl,
      (crew_lined_of_ne (by simp)).set hc (by simp)⟩
    simp only [State.childTo, List.length_set, length_crew]
    omega

/-! ## Every run

`Reached` is closed under every call, with or without success. A run goes through the lists in one
direction: from `Stage` to one of the others, and from `Orphaned`, when a child gives up, to
`Broken`. -/

/-- A state of an arbitrary run. -/
def Reached (n : Nat) (s : State) : Prop := Stage n s ∨ Orphaned n s ∨ Broken n s

variable {call : Act × Bool}

theorem Orphaned.callStep (hs : Orphaned n s) (ht : Queue.callStep cap n s call = some t) :
    Broken n t := by
  obtain ⟨act, ok⟩ := call
  cases act with
  | parent =>
    cases hs with
    | mk hm => cases ok <;> cases ht
  | child k =>
    cases ok with
    | true =>
      cases hs with
      | mk hm =>
        rw [Queue.callStep, crew_zero, childStep_empty hm.le] at ht
        cases ht
    | false => exact hs.childFail ht

theorem Broken.callStep (hs : Broken n s) (ht : Queue.callStep cap n s call = some t) :
    Broken n t := by
  obtain ⟨act, ok⟩ := call
  cases act with
  | parent =>
    cases ok with
    | true =>
      simp only [Queue.callStep] at ht
      split at ht
      · cases ht
        exact ⟨hs.removed, hs.pos, .inr (.inr rfl), hs.few, hs.printed⟩
      · exact hs.parentStep ht
    | false => exact hs.parentFail ht
  | child k =>
    cases ok with
    | true => exact hs.childStep ht
    | false => exact hs.childFail ht

/-- While nothing has failed the queue is there to be deleted. -/
theorem Stage.callStep_true (hs : Stage n s) (act : Act) :
    Queue.callStep cap n s (act, true) = Queue.step cap n s act := by
  cases act with
  | parent =>
    refine if_neg fun hgone => ?_
    obtain ⟨hpc, hnone⟩ := hgone
    cases hs with
    | deleting => cases hnone
    | forking | posting | posted | taken | printed | answered | done => cases hpc
  | child k => rfl

theorem Reached.callStep (hcap : 1 ≤ cap) (hs : Reached n s)
    (ht : Queue.callStep cap n s call = some t) : Reached n t := by
  rcases hs with hs | hs | hs
  · obtain ⟨act, ok⟩ := call
    cases ok with
    | true =>
      rw [hs.callStep_true] at ht
      exact .inl (hs.step hcap ht)
    | false =>
      cases act with
      | parent => exact .inr (hs.parentFail ht)
      | child k => exact .inr (.inr (hs.childFail ht))
  · exact .inr (.inr (hs.callStep ht))
  · exact .inr (.inr (hs.callStep ht))

theorem Reached.rounds (hs : Reached n s) : ∀ j, s.parent = .collecting j → j ≤ n := by
  intro j hj
  rcases hs with hs | hs | hs
  · exact hs.rounds j hj
  · cases hs
    cases hj
  · rcases hs.parent with hpc | ⟨i, hi, hpc | hpc⟩ | hpc
    · rw [hpc] at hj
      cases hj
    · rw [hpc] at hj
      cases hj
    · rw [hpc] at hj
      cases hj
      exact hi
    · rw [hpc] at hj
      cases hj

/-- A call that fails is the last of its process. -/
theorem left_callStep_false (ht : Queue.callStep cap n s (act, false) = some t) :
    t.left n < s.left n := by
  cases act with
  | parent =>
    obtain ⟨parent, children, queue, printed⟩ := s
    unfold State.left
    cases parent with
    | forking j | posting j =>
      obtain ⟨-, ht⟩ := Option.ite_none_right_eq_some.mp ht
      cases ht
      simp only [ParentPc.left]
      omega
    | collecting j =>
      cases ht
      simp only [ParentPc.left]
      omega
    | deleting | done | failed => cases ht
  | child k =>
    obtain ⟨c, hc, hpc, rfl⟩ := childFail_eq ht
    have hmove : (s.childTo k c .failed).left n + c.pc.left = s.left n + 0 := left_childTo hc
    show (s.childTo k c .failed).left n < s.left n
    rcases hpc with hpc | hpc
    · rw [hpc, ChildPc.left] at hmove
      omega
    · rw [hpc, ChildPc.left] at hmove
      omega

theorem Reached.left (hs : Reached n s) (ht : Queue.callStep cap n s call = some t) :
    t.left n < s.left n := by
  obtain ⟨act, ok⟩ := call
  cases ok with
  | false => exact left_callStep_false ht
  | true =>
    cases act with
    | child k => exact (left_childStep ht).1
    | parent =>
      simp only [Queue.callStep] at ht
      split at ht
      · rename_i hdel
        cases ht
        unfold State.left
        rw [hdel.1]
        simp only [ParentPc.left]
        omega
      · exact (left_parentStep hs.rounds ht).1

/-! ## How it ends

A state in which nobody can move is looked up in the three lists.

In `Stage` somebody can go on unless all is done. In `Broken` everybody can who has not exited,
since a call on a queue that is gone returns at once. So whoever waits for ever is an orphan. -/

theorem Stage.printed_prefix (hs : Stage n s) : s.printed <+: numbers n := by
  cases hs with
  | forking => exact List.nil_prefix
  | posting hi => exact numbers_prefix hi
  | posted hi | taken hi => exact numbers_prefix hi.le
  | printed hi | answered hi => exact numbers_prefix hi
  | deleting | done => exact List.prefix_rfl

theorem Reached.printed_prefix (hs : Reached n s) : s.printed <+: numbers n := by
  rcases hs with hs | hs | hs
  · exact hs.printed_prefix
  · cases hs
    exact List.nil_prefix
  · obtain ⟨i, hi, hprinted, -⟩ := hs.printed
    exact hprinted ▸ numbers_prefix hi

/-- After a failure the parent does not come to its `return 0`. -/
theorem Reached.done (hs : Reached n s) (hpc : s.parent = .done) :
    s = ⟨.done, crew n (n + 1) .waiting, none, numbers n⟩ := by
  rcases hs with hs | hs | hs
  · cases hs with
    | done => rfl
    | forking | posting | posted | taken | printed | answered | deleting => cases hpc
  · cases hs
    cases hpc
  · rcases hs.parent with h | ⟨i, -, h | h⟩ | h <;> rw [h] at hpc <;> cases hpc

theorem left_done : State.left n ⟨.done, crew n (n + 1) .waiting, none, numbers n⟩ = 0 := by
  rw [State.left, ParentPc.left, Nat.zero_add]
  refine List.sum_eq_zero fun x hx => ?_
  obtain ⟨c, hc, rfl⟩ := List.mem_map.mp hx
  rw [crew_all_done c hc]
  rfl

/-- With the queue gone nobody has to wait. -/
theorem Broken.ended (hs : Broken n s)
    (hstuck : ∀ act, Queue.callStep cap n s (act, true) = none) : Ended s := by
  obtain ⟨parent, children, queue, printed⟩ := s
  obtain ⟨hremoved, -, hparent, -, -⟩ := hs
  dsimp only at hremoved hparent
  subst hremoved
  have hstay := hstuck .parent
  simp only [Queue.callStep] at hstay
  refine ⟨.inr ?_, fun c hc => ?_⟩
  · rcases hparent with rfl | ⟨j, hj, rfl | rfl⟩ | rfl
    · rw [if_neg (by simp)] at hstay
      simp only [Queue.parentStep] at hstay
      split at hstay <;> cases hstay
    · rw [if_neg (by simp)] at hstay
      simp [Queue.parentStep, hj] at hstay
    · cases hstay
    · rfl
  · obtain ⟨k, hk⟩ := List.mem_iff_getElem?.mp hc
    have hidle := hstuck (.child k)
    simp only [Queue.callStep, Queue.childStep, hk, Option.bind_some] at hidle
    cases hpc : c.pc with
    | done => exact .inl rfl
    | failed => exact .inr rfl
    | waiting | printing | answering => simp [hpc] at hidle

theorem Reached.stuck (hcap : 1 ≤ cap) (hs : Reached n s)
    (hstuck : ∀ act, Queue.callStep cap n s (act, true) = none) :
    Ended s ∧ s.queue = none ∨ Orphaned n s := by
  rcases hs with hs | hs | hs
  · rcases hs.move hcap with ⟨act, t, ht⟩ | hdone
    · rw [← hs.callStep_true, hstuck act] at ht
      cases ht
    · obtain rfl := Reached.done (.inl hs) hdone
      exact .inl ⟨⟨.inl rfl, fun c hc => .inl (crew_all_done c hc)⟩, rfl⟩
  · exact .inr hs
  · exact .inl ⟨hs.ended hstuck, hs.removed⟩

theorem Ended.stuck (hs : Ended s) (act : Act) : Queue.callStep cap n s (act, true) = none := by
  obtain ⟨hparent, hchildren⟩ := hs
  cases act with
  | parent =>
    simp only [Queue.callStep]
    rcases hparent with hpc | hpc
    · simp [hpc, Queue.parentStep]
    · simp [hpc, Queue.parentStep]
  | child k =>
    simp only [Queue.callStep, Queue.childStep]
    cases hc : s.children[k]? with
    | none => rfl
    | some c =>
      rcases hchildren c (List.mem_of_getElem? hc) with hpc | hpc
      · simp [hpc]
      · simp [hpc]

theorem Orphaned.stuck (hs : Orphaned n s) (act : Act) :
    Queue.callStep cap n s (act, true) = none := by
  cases hs with
  | mk hm =>
    cases act with
    | parent => rfl
    | child k =>
      rw [Queue.callStep, crew_zero]
      exact childStep_empty hm.le

section Runs

theorem Stage.start : Stage n start := .forking (Nat.zero_le n)

/-- **Without a failure** the program comes to its end, in the same number of steps every time
    and without a choice on the way. -/
theorem ordered_completes (hcap : 1 ≤ cap) {acts : List Act}
    (hr : Run (step cap n) Always start acts s) :
    (s.parent = .done ↔ acts.length = 6 * n + 3) ∧
      (∀ a a' t t', step cap n s a = some t → step cap n s a' = some t' → a = a') ∧
      ∃ acts' t, Run (step cap n) Always start (acts ++ acts') t ∧
        t = ⟨.done, crew n (n + 1) .waiting, none, numbers n⟩ := by
  have hkeep : ∀ s a t, Stage n s → Always s a → step cap n s a = some t →
      Stage n t ∧ s.left n = t.left n + 1 := fun _ _ _ hs _ ht => ⟨hs.step hcap ht, hs.left ht⟩
  have hs : Stage n s := hr.invariant Stage.start fun s a t hs hok ht => (hkeep s a t hs hok ht).1
  have hcount := left_start (n := n) ▸ hr.length_add_eq Stage.start hkeep
  refine ⟨⟨fun hdone => ?_, fun hlength => ?_⟩, fun a a' t t' ht ht' => ?_, ?_⟩
  · obtain rfl := Reached.done (.inl hs) hdone
    rw [← hcount, left_done, Nat.add_zero]
  · rcases hs.move hcap with ⟨a, t, ht⟩ | hdone
    · have hless := hs.left ht
      omega
    · exact hdone
  · obtain ⟨b, hb⟩ : ∃ b, ∀ a, a ≠ b → step cap n s a = none := hs.turn
    have hown : ∀ a t, step cap n s a = some t → a = b := by
      intro a t ht
      by_contra hne
      rw [hb a hne] at ht
      cases ht
    exact (hown a t ht).trans (hown a' t' ht').symm
  · have hless : ∀ s a t, Stage n s → Always s a → step cap n s a = some t →
        Stage n t ∧ t.left n < s.left n := fun s a t hs hok ht => by
      obtain ⟨hnext, hone⟩ := hkeep s a t hs hok ht
      exact ⟨hnext, by omega⟩
    have hgo : ∀ s, Stage n s → ¬s.parent = .done →
        ∃ a t, Always s a ∧ step cap n s a = some t := fun s hs hend => by
      obtain ⟨a, t, ht⟩ := (hs.move hcap).resolve_right hend
      exact ⟨a, t, trivial, ht⟩
    obtain ⟨acts', t, hr', ht, hdone⟩ := Run.exists_end hs hless hgo
    exact ⟨acts', t, hr.append hr', Reached.done (.inl ht) hdone⟩

/-- **With calls that fail**: every run ends, the numbers on the screen are in order, success means
    that all of them are there, and the only processes that are left waiting are the children of a
    parent whose `fork` has failed. -/
theorem failing_run (hcap : 1 ≤ cap) {calls : List (Act × Bool)}
    (hr : Run (callStep cap n) Always start calls s) :
    calls.length ≤ 6 * n + 3 ∧ s.printed <+: numbers n ∧
      (s.parent = .done → s = ⟨.done, crew n (n + 1) .waiting, none, numbers n⟩) ∧
      ((∀ act, callStep cap n s (act, true) = none) ↔
        Ended s ∧ s.queue = none ∨ Orphaned n s) := by
  have hkeep : ∀ s call t, Reached n s → Always s call → callStep cap n s call = some t →
      Reached n t ∧ t.left n < s.left n := fun _ _ _ hs _ ht => ⟨hs.callStep hcap ht, hs.left ht⟩
  have hs : Reached n s :=
    hr.invariant (.inl Stage.start) fun s a t hs hok ht => (hkeep s a t hs hok ht).1
  have hlength := hr.length_le (.inl Stage.start) hkeep
  rw [left_start] at hlength
  refine ⟨hlength, hs.printed_prefix, hs.done, hs.stuck hcap, ?_⟩
  rintro (⟨hended, -⟩ | horphaned)
  · exact hended.stuck
  · exact horphaned.stuck

/-- Two children and room for one message: the first child is created and asked, and it has
    printed. -/
def firstPrinted : List Act := [.parent, .parent, .parent, .parent, .child 0, .child 0]

/-- From there the program comes to its end, with both numbers on the screen. -/
theorem ordered_completes_two : ∃ s acts t, Run (step 1 2) Always start firstPrinted s ∧
    s.printed = [(1, 1)] ∧ s.parent ≠ .done ∧
    Run (step 1 2) Always start (firstPrinted ++ acts) t ∧ t.parent = .done ∧
    t.printed = [(1, 1), (2, 2)] := by
  have hrun : (exec (step 1 2) Always firstPrinted start).any
      (fun s => s.printed = [(1, 1)] ∧ s.parent ≠ .done) = true := by decide
  obtain ⟨s, hr, hs⟩ := Run.exists_of_exec hrun
  obtain ⟨hprinted, hgoing⟩ := of_decide_eq_true hs
  obtain ⟨-, -, acts, t, hr', rfl⟩ := ordered_completes (Nat.le_refl 1) hr
  exact ⟨s, acts, _, hr, hprinted, hgoing, hr', rfl, by decide⟩

/-- The second of two `fork`s fails: the first child waits for ever. -/
theorem failing_run_orphan : ∃ calls s, Run (callStep 1 2) Always start calls s ∧
    s.children = [⟨1, .waiting⟩] ∧ ∀ act, callStep 1 2 s (act, true) = none := by
  have hrun : exec (callStep 1 2) Always [(.parent, true), (.parent, false)] start =
      some ⟨.failed, [⟨1, .waiting⟩], some [], []⟩ := by decide
  refine ⟨_, _, .of_exec hrun, rfl, ?_⟩
  exact (failing_run (Nat.le_refl 1) (.of_exec hrun)).2.2.2.mpr (.inr (.mk (m := 1) (by decide)))

end Runs

end CompTech.Queue
