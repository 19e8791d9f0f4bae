import CompTech.Lib.Handover
import CompTech.Sharmem.Model

/-!
# The transfer as a hand-over

Seen from outside the file contents, the transfer is the hand-over protocol: the writers are
one side, with the slot FULL and the token SYNC_RD, the readers the other, with EMPTY and
SYNC_WR. `view` counts the processes in each phase and copies the semaphore values.

A process keeps its phase until its exit, also on its error path: its adjustments are still to
be applied. The exception is a process that failed before its first operation, which holds
nothing and will not start.

The hand-over protocol (`Lib.Handover`) knows nothing of files: it is about two sides that come in
any number, meet with a token each, check that the other is there and leave. `view` is the
abstraction map to it. All that is proved about the counters in `Accounts` is proved there and
brought back along `view`, and `count_set_add` is what a step of one process changes in it.
-/

namespace CompTech.Sharmem

open Lib

/-- Where the calls of the writer stand in the protocol. All of the loop behind the check is one
    phase, since the counters do not change there but for the slot, which `view` reads off the set.
    -/
def WriterPc.phase : WriterPc → Phase
  | .aloneWr => .start
  | .waitPrevConnect => .wait
  | .setvalFull => .setval
  | .syncRead => .post
  | .syncWrite => .posted
  | .openFile | .pEmpty => .conn
  | .checkNumProc => .check
  | .read | .memcpy | .storeNumSymb | .vFull => .checked
  | .closeFile | .endWr => .leaving
  | .unlinkShm | .deleteShm | .deleteSem | .returned => .ended

/-- The same for the reader. Its `endRd` is one call where the writer has the `close` in front of
    it. -/
def ReaderPc.phase : ReaderPc → Phase
  | .aloneRd => .start
  | .waitPrevConnect => .wait
  | .setvalEmpty => .setval
  | .syncWrite => .post
  | .syncRead => .posted
  | .pFull => .conn
  | .checkNumProc => .check
  | .load | .write | .vEmpty => .checked
  | .endRd => .leaving
  | .unlinkShm | .returned => .ended

/-- A process whose adjustments the kernel has still to apply. -/
def Task.live (t : Task) : Bool := t.life ≠ .dead

/-- The phase of a process whose program counter is in phase `p`. -/
def Task.phase (t : Task) (p : Phase) : Option Phase :=
  match t.life with
  | .running => some p
  | .failing => some (if p = .start then .ended else p)
  | .dead => none

/-- The phase of a writer, `none` when it is gone. -/
def Writer.phase (w : Writer) : Option Phase := w.task.phase w.pc.phase

/-- The phase of a reader, `none` when it is gone. -/
def Reader.phase (r : Reader) : Option Phase := r.task.phase r.pc.phase

/-- The counters, from the phases of the two sides and the values of the semaphores. -/
def view (ws rs : List (Option Phase)) (v : SEM → Nat) : Ctl where
  n
    | .left => fun p => ws.count (some p)
    | .right => fun p => rs.count (some p)
  slot
    | .left => v .full
    | .right => v .empty
  tok
    | .left => v .syncRd
    | .right => v .syncWr
  alone
    | .left => v .aloneWr
    | .right => v .aloneRd
  numProc := v .numProc

/-- The writer sets FULL to 0, the reader EMPTY to 1. -/
def initSlot : Side → Nat
  | .left => 0
  | .right => 1

/-- Together the slots are one: one block is under way. -/
theorem initSlot_sum (x : Side) : initSlot x + initSlot x.other = 1 := by cases x <;> rfl

namespace State

/-- The writers as the protocol sees them. -/
def writerPhases (s : State) : List (Option Phase) := s.writers.map Writer.phase

/-- The readers as the protocol sees them. -/
def readerPhases (s : State) : List (Option Phase) := s.readers.map Reader.phase

/-- The state as the protocol sees it, with the values `v` of a set that is there. -/
def ctl (s : State) (v : SEM → Nat) : Ctl := view s.writerPhases s.readerPhases v

end State

/-! ## Counting -/

/-- A step of one process takes one from the count of its old phase and adds one to that of its new
    one, and leaves the other counts alone. Said with a sum, so that the case in which the two are
    one phase is no case of its own. -/
theorem count_set_add {l : List (Option Phase)} {i : Nat} {p : Phase} {q : Option Phase}
    (h : l[i]? = some (some p)) (ph : Phase) :
    (l.set i q).count (some ph) + (if ph = p then 1 else 0) =
      l.count (some ph) + (if some ph = q then 1 else 0) := by
  obtain ⟨hi, hli⟩ := List.getElem?_eq_some_iff.mp h
  have hle : (if l[i] == some ph then 1 else 0) ≤ l.count (some ph) := by
    split
    · rename_i heq
      exact List.count_pos_iff.mpr (beq_iff_eq.mp heq ▸ List.getElem_mem hi)
    · exact Nat.zero_le _
  rw [List.count_set hi]
  rw [hli] at hle ⊢
  simp only [beq_iff_eq, Option.some.injEq] at hle ⊢
  have hp : (if p = ph then 1 else 0) = (if ph = p then 1 else 0) := if_congr eq_comm rfl rfl
  have hq : (if q = some ph then 1 else 0) = (if some ph = q then 1 else 0) :=
    if_congr eq_comm rfl rfl
  omega

/-- The active processes of a side, counted in the list. -/
theorem view_active (ws rs : List (Option Phase)) (v : SEM → Nat) :
    (view ws rs v).active .left = ws.countP (·.any Phase.active) ∧
      (view ws rs v).active .right = rs.countP (·.any Phase.active) := by
  have hcount : ∀ l : List (Option Phase), l.count (some .wait) + l.count (some .setval) +
      l.count (some .post) + l.count (some .posted) + l.count (some .conn) +
      l.count (some .check) + l.count (some .checked) + l.count (some .leaving) =
        l.countP (·.any Phase.active) := by
    intro l
    induction l with
    | nil => rfl
    | cons o l ih =>
      simp only [List.count_cons, List.countP_cons]
      rw [← ih]
      rcases o with _ | p
      · simp
      · cases p <;> simp [Phase.active] <;> omega
  exact ⟨hcount ws, hcount rs⟩

theorem view_connected (ws rs : List (Option Phase)) (v : SEM → Nat) :
    (view ws rs v).connected .left = ws.countP (·.any Phase.connected) ∧
      (view ws rs v).connected .right = rs.countP (·.any Phase.connected) := by
  have hcount : ∀ l : List (Option Phase), l.count (some .conn) + l.count (some .check) +
      l.count (some .checked) + l.count (some .leaving) =
        l.countP (·.any Phase.connected) := by
    intro l
    induction l with
    | nil => rfl
    | cons o l ih =>
      simp only [List.count_cons, List.countP_cons]
      rw [← ih]
      rcases o with _ | p
      · simp
      · cases p <;> simp [Phase.connected] <;> omega
  exact ⟨hcount ws, hcount rs⟩

end CompTech.Sharmem
