import CompTech.Sharmem.Delivery

/-!
# One writer and one reader in step

What the two processes can rely on when nothing goes wrong: `rank` numbers the calls of each
program in order, and `Lockstep` says, for the two ranks, what FULL, EMPTY and the two tokens
are and which block is on its way.

It is kept by the steps of a run in which the writer does not overtake the reader (`Orderly`):
it checks the number of processes after the reader has connected, leaves after the reader's
last check and removes the set after the reader's last post. Then no call of either can fail.

Every field of `Lockstep` is linear arithmetic over the two ranks and four values, so each of the
moves in its namespace is closed by `omega` once the fields are laid open; what there is to see is
in the statement, which rank goes where and what it adds. `InStep` carries it over to processes: the
two have not failed, the set is there until the writer has returned, and `num_symb` is the length in
the page wherever it will be looked at.

Two processes that come near each other in the loop cannot be told apart by their phases alone,
which is why there are numbers here and not a table of pairs of places.
-/

namespace CompTech.Sharmem

open Lib

/-- The number of the call in the order of the file. -/
def WriterPc.rank : WriterPc → Nat
  | .aloneWr => 0
  | .waitPrevConnect => 1
  | .setvalFull => 2
  | .syncRead => 3
  | .syncWrite => 4
  | .openFile => 5
  | .pEmpty => 6
  | .checkNumProc => 7
  | .read => 8
  | .memcpy => 9
  | .storeNumSymb => 10
  | .vFull => 11
  | .closeFile => 12
  | .endWr => 13
  | .unlinkShm => 14
  | .deleteShm => 15
  | .deleteSem => 16
  | .returned => 17

/-- The number of the call in the order of the file. -/
def ReaderPc.rank : ReaderPc → Nat
  | .aloneRd => 0
  | .waitPrevConnect => 1
  | .setvalEmpty => 2
  | .syncWrite => 3
  | .syncRead => 4
  | .pFull => 5
  | .checkNumProc => 6
  | .load => 7
  | .write => 8
  | .vEmpty => 9
  | .endRd => 10
  | .unlinkShm => 11
  | .returned => 12

/-- The ranks `a` of the writer and `b` of the reader against the semaphores and the length in the
    page. The ranks stand for intervals of the two programs: up to 4 a side has not taken the
    other's token, from 5 on it is connected, the critical part is 7 to 11 for the writer and 6 to 9
    for the reader, and 12 and 10 are the first calls behind the loops. -/
structure Lockstep (a b full empty syncRd syncWr len : Nat) : Prop where
  syncRd : (a ≤ 3 → syncRd = 0 ∧ b ≤ 4) ∧ (4 ≤ a → b ≤ 4 → syncRd = 1) ∧ (5 ≤ b → syncRd = 0)
  syncWr : (b ≤ 3 → syncWr = 0 ∧ a ≤ 4) ∧ (4 ≤ b → a ≤ 4 → syncWr = 1) ∧ (5 ≤ a → syncWr = 0)
  /-- the slots before the reader has set EMPTY, and before the first block -/
  unset : b ≤ 2 → full = 0 ∧ empty = 0
  first : a ≤ 5 → full = 0 ∧ b ≤ 5
  /-- one block: with the writer, with the reader, or in a slot -/
  writing : 7 ≤ a → a ≤ 11 → full = 0 ∧ empty = 0 ∧ b ≤ 5
  reading : 6 ≤ b → b ≤ 9 → full = 0 ∧ empty = 0 ∧ (a = 6 ∨ 12 ≤ a)
  between : 3 ≤ b → b ≤ 5 → a ≤ 6 ∨ 12 ≤ a → full + empty = 1
  leaving : (b = 10 → empty = 1) ∧ (10 ≤ b → full = 0 ∧ 12 ≤ a)
  /-- a block on its way is the last one exactly if the writer has left its loop -/
  transit : full = 1 ∨ (6 ≤ b ∧ b ≤ 9) → 0 < len ∧ a = 6 ∨ len = 0 ∧ 12 ≤ a
  last : 12 ≤ a → full = 1 ∨ 6 ≤ b
  /-- the set is not removed under a reader that has not passed its check -/
  ended : 14 ≤ a → 7 ≤ b

namespace Lockstep

variable {a b full empty syncRd syncWr len : Nat}

/-- In front of both programs, whatever length was left in the page. -/
theorem start (len : Nat) : Lockstep 0 0 0 0 0 0 len := by
  constructor <;> omega

/-! ### The writer moves -/

section Writer

variable (h : Lockstep a b full empty syncRd syncWr len)
include h

theorem writerQuiet (a' : Nat)
    (ha : a = 0 ∧ a' = 1 ∨ a = 1 ∧ a' = 2 ∨ a = 2 ∧ a' = 3 ∨ a = 5 ∧ a' = 6 ∨ a = 7 ∧ a' = 8 ∨
      a = 8 ∧ a' = 9 ∨ a = 9 ∧ a' = 10 ∨ a = 12 ∧ a' = 13 ∨ a = 14 ∧ a' = 15 ∨ a = 15 ∧ a' = 16) :
    Lockstep a' b full empty syncRd syncWr len := by
  obtain ⟨h₁, h₂, h₃, h₄, h₅, h₆, h₇, h₈, h₉, h₁₀, h₁₁⟩ := h
  rcases ha with ⟨rfl, rfl⟩ | ⟨rfl, rfl⟩ | ⟨rfl, rfl⟩ | ⟨rfl, rfl⟩ | ⟨rfl, rfl⟩ | ⟨rfl, rfl⟩ |
    ⟨rfl, rfl⟩ | ⟨rfl, rfl⟩ | ⟨rfl, rfl⟩ | ⟨rfl, rfl⟩ <;> constructor <;> grind

/-- `sync_read`: the token is put out. -/
theorem writerPosts (ha : a = 3) : Lockstep 4 b full empty (syncRd + 1) syncWr len := by
  obtain ⟨h₁, h₂, h₃, h₄, h₅, h₆, h₇, h₈, h₉, h₁₀, h₁₁⟩ := h
  constructor <;> grind

/-- `sync_write`: the reader's token is taken. -/
theorem writerConnects (ha : a = 4) (hw : 0 < syncWr) :
    Lockstep 5 b full empty syncRd (syncWr - 1) len := by
  obtain ⟨h₁, h₂, h₃, h₄, h₅, h₆, h₇, h₈, h₉, h₁₀, h₁₁⟩ := h
  constructor <;> grind

/-- `p_empty` -/
theorem writerTakes (ha : a = 6) (he : 0 < empty) :
    Lockstep 7 b full (empty - 1) syncRd syncWr len := by
  obtain ⟨h₁, h₂, h₃, h₄, h₅, h₆, h₇, h₈, h₉, h₁₀, h₁₁⟩ := h
  constructor <;> grind

/-- The new length; the page is the writer's, so nobody has looked at the old one. -/
theorem writerStores (ha : a = 10) (len' : Nat) :
    Lockstep 11 b full empty syncRd syncWr len' := by
  obtain ⟨h₁, h₂, h₃, h₄, h₅, h₆, h₇, h₈, h₉, h₁₀, h₁₁⟩ := h
  constructor <;> grind

/-- `v_full` in the middle of the file -/
theorem writerGives (ha : a = 11) (hl : 0 < len) :
    Lockstep 6 b (full + 1) empty syncRd syncWr len := by
  obtain ⟨h₁, h₂, h₃, h₄, h₅, h₆, h₇, h₈, h₉, h₁₀, h₁₁⟩ := h
  constructor <;> grind

/-- `v_full` behind the empty block -/
theorem writerGivesLast (ha : a = 11) (hl : len = 0) :
    Lockstep 12 b (full + 1) empty syncRd syncWr len := by
  obtain ⟨h₁, h₂, h₃, h₄, h₅, h₆, h₇, h₈, h₉, h₁₀, h₁₁⟩ := h
  constructor <;> grind

/-- `end_wr`, behind the last check of the reader -/
theorem writerEnds (ha : a = 13) (hb : 7 ≤ b) : Lockstep 14 b full empty syncRd syncWr len := by
  obtain ⟨h₁, h₂, h₃, h₄, h₅, h₆, h₇, h₈, h₉, h₁₀, h₁₁⟩ := h
  constructor <;> grind

end Writer

/-! ### The reader moves -/

section Reader

variable (h : Lockstep a b full empty syncRd syncWr len)
include h

theorem readerQuiet (b' : Nat)
    (hb : b = 0 ∧ b' = 1 ∨ b = 1 ∧ b' = 2 ∨ b = 6 ∧ b' = 7 ∨ b = 7 ∧ b' = 8 ∨ b = 8 ∧ b' = 9 ∨
      b = 11 ∧ b' = 12) : Lockstep a b' full empty syncRd syncWr len := by
  obtain ⟨h₁, h₂, h₃, h₄, h₅, h₆, h₇, h₈, h₉, h₁₀, h₁₁⟩ := h
  rcases hb with ⟨rfl, rfl⟩ | ⟨rfl, rfl⟩ | ⟨rfl, rfl⟩ | ⟨rfl, rfl⟩ | ⟨rfl, rfl⟩ | ⟨rfl, rfl⟩ <;>
    constructor <;> grind

/-- `SETVAL` of EMPTY -/
theorem readerSets (hb : b = 2) : Lockstep a 3 full 1 syncRd syncWr len := by
  obtain ⟨h₁, h₂, h₃, h₄, h₅, h₆, h₇, h₈, h₉, h₁₀, h₁₁⟩ := h
  constructor <;> grind

/-- `sync_write`: the token is put out. -/
theorem readerPosts (hb : b = 3) : Lockstep a 4 full empty syncRd (syncWr + 1) len := by
  obtain ⟨h₁, h₂, h₃, h₄, h₅, h₆, h₇, h₈, h₉, h₁₀, h₁₁⟩ := h
  constructor <;> grind

/-- `sync_read`: the writer's token is taken. -/
theorem readerConnects (hb : b = 4) (hr : 0 < syncRd) :
    Lockstep a 5 full empty (syncRd - 1) syncWr len := by
  obtain ⟨h₁, h₂, h₃, h₄, h₅, h₆, h₇, h₈, h₉, h₁₀, h₁₁⟩ := h
  constructor <;> grind

/-- `p_full` -/
theorem readerTakes (hb : b = 5) (hf : 0 < full) :
    Lockstep a 6 (full - 1) empty syncRd syncWr len := by
  obtain ⟨h₁, h₂, h₃, h₄, h₅, h₆, h₇, h₈, h₉, h₁₀, h₁₁⟩ := h
  constructor <;> grind

/-- `v_empty` in the middle of the file -/
theorem readerGives (hb : b = 9) (hl : 0 < len) :
    Lockstep a 5 full (empty + 1) syncRd syncWr len := by
  obtain ⟨h₁, h₂, h₃, h₄, h₅, h₆, h₇, h₈, h₉, h₁₀, h₁₁⟩ := h
  constructor <;> grind

/-- `v_empty` behind the empty block -/
theorem readerGivesLast (hb : b = 9) (hl : len = 0) :
    Lockstep a 10 full (empty + 1) syncRd syncWr len := by
  obtain ⟨h₁, h₂, h₃, h₄, h₅, h₆, h₇, h₈, h₉, h₁₀, h₁₁⟩ := h
  constructor <;> grind

/-- Past the end EMPTY means nothing any more. -/
theorem readerEnds {b' : Nat} (hb : b = 10 ∧ b' = 11 ∨ b = 12 ∧ b' = 12) (empty' : Nat) :
    Lockstep a b' full empty' syncRd syncWr len := by
  obtain ⟨h₁, h₂, h₃, h₄, h₅, h₆, h₇, h₈, h₉, h₁₀, h₁₁⟩ := h
  rcases hb with ⟨rfl, rfl⟩ | ⟨rfl, rfl⟩ <;> constructor <;> grind

end Reader

end Lockstep

/-! ## The pair

From ranks to processes: the values of the set are those that `Lockstep` asks for, at the ranks of
the two places.

What is new against `Lockstep` are the facts about processes that numbers cannot say. The set goes
with the return of the writer, and the reader is then behind its loop; whether a process sleeps
matters for one call only, the last of the reader, since a removal wakes those who sleep with an
error. -/

/-- The last check of the reader is passed, if it has come to its last block. -/
def ReaderPc.pastCheck : ReaderPc → Bool
  | .load | .write | .vEmpty | .endRd | .unlinkShm | .returned => true
  | _ => false

/-- The reader is behind its loop. -/
def ReaderPc.leftLoop : ReaderPc → Bool
  | .endRd | .unlinkShm | .returned => true
  | _ => false

/-- Running, or gone after its return. -/
def Task.unfailed (k : Task) (returned : Prop) : Prop :=
  k.life = .running ∨ k.life = .dead ∧ returned

/-- One writer and one reader, neither of which has failed, in step. -/
structure InStep (s : State) (w : Writer) (r : Reader) : Prop where
  writers : s.writers = [w]
  readers : s.readers = [r]
  writer : w.task.unfailed (w.pc = .returned)
  reader : r.task.unfailed (r.pc = .returned)
  sems : ∀ v, s.sems = some v → w.pc ≠ .returned ∧
    Lockstep w.pc.rank r.pc.rank (v .full) (v .empty) (v .syncRd) (v .syncWr) s.shmLen
  /-- the writer removes the set when the reader has left its loop -/
  gone : s.sems = none → w.pc = .returned ∧ 10 ≤ r.pc.rank
  /-- the reader's last operation does not wait, so it is not found asleep by the removal -/
  awake : r.pc = .endRd → r.task.asleep = false
  taken : r.pc = .write ∨ r.pc = .vEmpty → r.numSymb = s.shmLen
  stored : w.pc = .vFull → s.shmLen = w.numSymb.toNat
  inFile : w.pos ≤ w.file.length

variable {s t : State} {v v' : SEM → Nat} {w w' : Writer} {r r' : Reader} {e : Event}

theorem WriterPc.connected_iff (pc : WriterPc) :
    pc.phase.connected = true ↔ 5 ≤ pc.rank ∧ pc.rank ≤ 13 := by
  cases pc <;> decide

theorem ReaderPc.connected_iff (pc : ReaderPc) :
    pc.phase.connected = true ↔ 5 ≤ pc.rank ∧ pc.rank ≤ 10 := by
  cases pc <;> decide

/-- The check, as a rank. In the middle of the file `pastCheck` says nothing, since the reader goes
    round again; it is for the last block that the order asks it. -/
theorem ReaderPc.pastCheck_iff (pc : ReaderPc) : pc.pastCheck = true ↔ 7 ≤ pc.rank := by
  cases pc <;> decide

theorem ReaderPc.leftLoop_iff (pc : ReaderPc) : pc.leftLoop = true ↔ 10 ≤ pc.rank := by
  cases pc <;> decide

/-- No value is beyond 1 while it matters. -/
theorem Lockstep.small {a b full empty syncRd syncWr len : Nat}
    (h : Lockstep a b full empty syncRd syncWr len) :
    full ≤ 1 ∧ syncRd ≤ 1 ∧ syncWr ≤ 1 ∧ (b ≤ 10 → empty ≤ 1) := by
  obtain ⟨h₁, h₂, h₃, h₄, h₅, h₆, h₇, h₈, h₉, h₁₀, h₁₁⟩ := h
  refine ⟨?_, ?_, ?_, ?_⟩ <;> grind

/-- The counters of one writer and one reader. -/
theorem Accounts.of_pair (h : Accounts s v) (hw : s.writers = [w]) (hr : s.readers = [r]) :
    v .aloneWr = w.alone.toNat ∧ v .aloneRd = r.alone.toNat ∧
      v .numProc = w.connected.toNat + r.connected.toNat := by
  obtain ⟨hwa, hra, hwc, hrc⟩ := countP_phases s v
  have hsingle : ∀ (q : Writer → Bool), s.writers.countP q = (q w).toNat := by
    intro q
    rw [hw, List.countP_singleton]
    cases q w <;> rfl
  have hsingle' : ∀ (q : Reader → Bool), s.readers.countP q = (q r).toNat := by
    intro q
    rw [hr, List.countP_singleton]
    cases q r <;> rfl
  rw [hsingle] at hwa hwc
  rw [hsingle'] at hra hrc
  exact ⟨(h.acct.alone .left).trans hwa, (h.acct.alone .right).trans hra,
    h.acct.numProc.trans (hwc ▸ hrc ▸ rfl)⟩

/-- A writer owes one at most for each semaphore. -/
theorem adjWr_small (p : Phase) (x : SEM) : (adjWr p x).natAbs ≤ 1 := by
  have hact : p.active.toNat ≤ 1 := Bool.toNat_le _
  have hconn : p.connected.toNat ≤ 1 := Bool.toNat_le _
  cases x <;> simp only [adjWr] <;> omega

/-- A reader owes one at most for each semaphore. -/
theorem adjRd_small (p : Phase) (x : SEM) : (adjRd p x).natAbs ≤ 1 := by
  have hact : p.active.toNat ≤ 1 := Bool.toNat_le _
  have hconn : p.connected.toNat ≤ 1 := Bool.toNat_le _
  cases x <;> simp only [adjRd] <;> omega

/-- The values that matter are small. -/
theorem InStep.values (h : InStep s w r) (hacc : Accounts s v) (hv : s.sems = some v) (x : SEM)
    (hx : x ≠ .empty ∨ r.pc.rank ≤ 10) : v x ≤ 2 := by
  obtain ⟨haw, har, hnum⟩ := hacc.of_pair h.writers h.readers
  obtain ⟨hf, hr, hw, he⟩ := (h.sems v hv).2.small
  have hbound : ∀ b : Bool, b.toNat ≤ 1 := Bool.toNat_le
  have h₁ := hbound w.alone
  have h₂ := hbound r.alone
  have h₃ := hbound w.connected
  have h₄ := hbound r.connected
  cases x with
  | empty =>
    have hle := he (hx.resolve_left fun hne => hne rfl)
    omega
  | _ => omega

/-- What the operations of the writer have in common: small numbers, so that no value and no
    adjustment overflows, and only the check does not wait. -/
theorem WriterOp.small {pc next : WriterPc} {ops : List (Sembuf SEM)} (ho : WriterOp pc ops next) :
    (∀ b ∈ ops, b.op.natAbs ≤ 2) ∧ ops.length ≤ 4 ∧ (∀ b ∈ ops, b.num ≠ .empty ∨ pc = .pEmpty) ∧
      (pc ≠ .checkNumProc → ∀ b ∈ ops, b.nowait = false) := by
  cases ho <;> decide

theorem ReaderOp.small {pc next : ReaderPc} {ops : List (Sembuf SEM)} (ho : ReaderOp pc ops next) :
    (∀ b ∈ ops, b.op.natAbs ≤ 2) ∧ ops.length ≤ 4 ∧ pc.rank ≤ 10 ∧
      (pc ≠ .checkNumProc → ∀ b ∈ ops, b.nowait = false) := by
  cases ho <;> decide

/-- What the operations of the writer need. -/
theorem WriterOp.passes {pc next : WriterPc} {ops : List (Sembuf SEM)} (ho : WriterOp pc ops next)
    (halone : pc = .aloneWr → v .aloneWr = 0) (hwait : pc = .waitPrevConnect → v .numProc = 0)
    (hconnect : pc = .syncWrite → 0 < v .syncWr) (htake : pc = .pEmpty → 0 < v .empty)
    (hcheck : pc = .checkNumProc → 2 ≤ v .numProc)
    (hend : pc = .endWr → 0 < v .numProc ∧ 0 < v .aloneWr) : Passes ops v := by
  cases ho with
  | alone => simp [Passes, Wr.alone, op, opUndo, halone rfl]
  | wait => simp [Passes, waitPrevConnect, op, hwait rfl]
  | syncRead =>
    simp only [Passes, Wr.syncRead, op, and_true]
    exact ⟨fun hz => absurd hz (by decide), by omega⟩
  | syncWrite =>
    have hpos := hconnect rfl
    simp [Passes, Wr.syncWrite, op, opUndo]
    omega
  | pEmpty =>
    have hpos := htake rfl
    simp [Passes, Wr.pEmpty, op]
    omega
  | check =>
    have htwo := hcheck rfl
    simp [Passes, checkNumProc, op]
    omega
  | vFull => simp [Passes, Wr.vFull, op]; omega
  | vFullLast => simp [Passes, Wr.vFull, op]; omega
  | endWr =>
    obtain ⟨hnum, halone⟩ := hend rfl
    simp [Passes, Wr.endWr, op, opUndo]
    omega

/-- What the operations of the reader need. -/
theorem ReaderOp.passes {pc next : ReaderPc} {ops : List (Sembuf SEM)} (ho : ReaderOp pc ops next)
    (halone : pc = .aloneRd → v .aloneRd = 0) (hwait : pc = .waitPrevConnect → v .numProc = 0)
    (hconnect : pc = .syncRead → 0 < v .syncRd) (htake : pc = .pFull → 0 < v .full)
    (hcheck : pc = .checkNumProc → 2 ≤ v .numProc)
    (hend : pc = .endRd → 0 < v .numProc ∧ 0 < v .empty ∧ 0 < v .aloneRd) : Passes ops v := by
  cases ho with
  | alone => simp [Passes, Rd.alone, op, opUndo, halone rfl]
  | wait => simp [Passes, waitPrevConnect, op, hwait rfl]
  | syncWrite =>
    simp only [Passes, Rd.syncWrite, op, and_true]
    exact ⟨fun hz => absurd hz (by decide), by omega⟩
  | syncRead =>
    have hpos := hconnect rfl
    simp [Passes, Rd.syncRead, op, opUndo]
    omega
  | pFull =>
    have hpos := htake rfl
    simp [Passes, Rd.pFull, op]
    omega
  | check =>
    have htwo := hcheck rfl
    simp [Passes, checkNumProc, op]
    omega
  | vEmpty => simp [Passes, Rd.vEmpty, op]; omega
  | vEmptyLast => simp [Passes, Rd.vEmpty, op]; omega
  | endRd =>
    obtain ⟨hnum, hempty, halone⟩ := hend rfl
    simp [Passes, Rd.endRd, opUndo]
    omega

/-- **What a call of the writer comes to:** it is done, or it waits for the reader. By the operation
    that stands at the writer's place. Each has its own reason to pass: the order for the check,
    `Lockstep` for the slots and the tokens, the accounts for the counters. -/
theorem InStep.writer_call (h : InStep s w r) (hacc : Accounts s v) (hv : s.sems = some v)
    (hrun : w.task.life = .running) {ops : List (Sembuf SEM)} {next : WriterPc}
    (ho : WriterOp w.pc ops next)
    (hcheck : w.pc = .checkNumProc → r.connected = true) :
    (∃ v' adj, semop ops v w.task.adj = .done v' adj) ∨
      semop ops v w.task.adj = .wait ∧
        (w.pc = .syncWrite ∧ v .syncWr = 0 ∨ w.pc = .pEmpty ∧ v .empty = 0) := by
  obtain ⟨-, hlock⟩ := h.sems v hv
  obtain ⟨haw, -, hnum⟩ := hacc.of_pair h.writers h.readers
  have hlive := Task.live_running hrun
  have hwa : w.alone = w.pc.phase.active := by rw [Writer.alone, hlive, Bool.true_and]
  have hwc : w.connected = w.pc.phase.connected := by rw [Writer.connected, hlive, Bool.true_and]
  rw [hwa] at haw
  rw [hwc] at hnum
  obtain ⟨hop, hlen, htouch, hnowait⟩ := ho.small
  have hroom : Roomy ops v w.task.adj := by
    refine .of_small hop hlen (fun b hb => h.values hacc hv b.num ?_) fun x => ?_
    · refine (htouch b hb).imp_right fun hpc => ?_
      have hleave := hlock.leaving.2
      rw [hpc] at hleave
      change 10 ≤ r.pc.rank → _ ∧ 12 ≤ 6 at hleave
      omega
    · have hexact : w.task.adj = adjWr w.pc.phase :=
        hacc.writers w (h.writers ▸ List.mem_singleton_self w) hlive
      rw [hexact]
      exact adjWr_small _ x
  have hidle : w.pc.rank ≤ 3 → r.connected = false := by
    intro hrank
    have hr := (hlock.syncRd.1 hrank).2
    rw [Reader.connected, Bool.and_eq_false_iff]
    refine .inr (Bool.eq_false_iff.mpr fun hc => ?_)
    have hr' := (ReaderPc.connected_iff _).mp hc
    omega
  by_cases hwaits : w.pc = .syncWrite ∧ v .syncWr = 0 ∨ w.pc = .pEmpty ∧ v .empty = 0
  · have hne : w.pc ≠ .checkNumProc := by
      rintro hpc
      rw [hpc] at hwaits
      rcases hwaits with ⟨hc, -⟩ | ⟨hc, -⟩ <;> cases hc
    exact (semop_or_wait hroom (hnowait hne)).imp_right fun hw => ⟨hw, hwaits⟩
  · refine .inl (semop_passes hroom (ho.passes ?_ ?_ ?_ ?_ ?_ ?_))
    · intro hpc
      rw [hpc] at haw
      exact haw
    · intro hpc
      rw [hpc, hidle (by rw [hpc]; decide)] at hnum
      exact hnum
    · exact fun hpc => Nat.pos_of_ne_zero fun hz => hwaits (.inl ⟨hpc, hz⟩)
    · exact fun hpc => Nat.pos_of_ne_zero fun hz => hwaits (.inr ⟨hpc, hz⟩)
    · intro hpc
      rw [hpc, hcheck hpc] at hnum
      exact Nat.le_of_eq hnum.symm
    · intro hpc
      rw [hpc] at haw hnum
      change v .aloneWr = 1 at haw
      change v .numProc = 1 + _ at hnum
      omega

/-- **What a call of the reader comes to:** it is done, or it waits for the writer. There is no
    order to be kept here: the writer leaves and removes the set late enough. The check of the
    reader needs no hypothesis, because the writer is connected up to `end_wr`, and that comes after
    the reader's last check. -/
theorem InStep.reader_call (h : InStep s w r) (hacc : Accounts s v) (hv : s.sems = some v)
    (hrun : r.task.life = .running) {ops : List (Sembuf SEM)} {next : ReaderPc}
    (ho : ReaderOp r.pc ops next) :
    (∃ v' adj, semop ops v r.task.adj = .done v' adj) ∨
      semop ops v r.task.adj = .wait ∧
        (r.pc = .syncRead ∧ v .syncRd = 0 ∨ r.pc = .pFull ∧ v .full = 0) := by
  obtain ⟨hnot, hlock⟩ := h.sems v hv
  obtain ⟨-, har, hnum⟩ := hacc.of_pair h.writers h.readers
  have hlive := Task.live_running hrun
  have hra : r.alone = r.pc.phase.active := by rw [Reader.alone, hlive, Bool.true_and]
  have hrc : r.connected = r.pc.phase.connected := by rw [Reader.connected, hlive, Bool.true_and]
  rw [hra] at har
  rw [hrc] at hnum
  have hwrun : w.task.life = .running := h.writer.resolve_right fun hd => hnot hd.2
  have hwc : w.connected = w.pc.phase.connected := by
    rw [Writer.connected, Task.live_running hwrun, Bool.true_and]
  obtain ⟨hop, hlen, hrank, hnowait⟩ := ho.small
  have hroom : Roomy ops v r.task.adj := by
    refine .of_small hop hlen (fun b hb => h.values hacc hv b.num (.inr hrank)) fun x => ?_
    have hexact : r.task.adj x = adjRd r.pc.phase x :=
      hacc.readers r (h.readers ▸ List.mem_singleton_self r) hlive x (.inr ho.phases.1)
    rw [hexact]
    exact adjRd_small _ x
  by_cases hwaits : r.pc = .syncRead ∧ v .syncRd = 0 ∨ r.pc = .pFull ∧ v .full = 0
  · have hne : r.pc ≠ .checkNumProc := by
      rintro hpc
      rw [hpc] at hwaits
      rcases hwaits with ⟨hc, -⟩ | ⟨hc, -⟩ <;> cases hc
    exact (semop_or_wait hroom (hnowait hne)).imp_right fun hw => ⟨hw, hwaits⟩
  · refine .inl (semop_passes hroom (ho.passes ?_ ?_ ?_ ?_ ?_ ?_))
    · intro hpc
      rw [hpc] at har
      exact har
    · intro hpc
      have hw : w.connected = false := by
        rw [hwc]
        refine Bool.eq_false_iff.mpr fun hc => ?_
        have hw := (WriterPc.connected_iff _).mp hc
        have hmeet := hlock.syncWr.1
        rw [hpc] at hmeet
        have hw' := (hmeet (by decide)).2
        omega
      rw [hpc, hw] at hnum
      exact hnum
    · exact fun hpc => Nat.pos_of_ne_zero fun hz => hwaits (.inl ⟨hpc, hz⟩)
    · exact fun hpc => Nat.pos_of_ne_zero fun hz => hwaits (.inr ⟨hpc, hz⟩)
    · intro hpc
      -- the writer whose block this is has not left
      have hw : w.connected = true := by
        rw [hwc, WriterPc.connected_iff]
        have hread := hlock.reading
        have hend := hlock.ended
        rw [hpc] at hread hend
        have hread' := (hread (by decide) (by decide)).2.2
        change 14 ≤ _ → 7 ≤ 6 at hend
        omega
      rw [hpc, hw] at hnum
      exact Nat.le_of_eq hnum.symm
    · intro hpc
      rw [hpc] at har hnum
      change v .aloneRd = 1 at har
      change v .numProc = _ + 1 at hnum
      have he : v .empty = 1 := hlock.leaving.1 (by rw [hpc]; rfl)
      omega

/-! ## Steps in order

One lemma for each side and each kind of move, as in `Steps`; every move is one of those above, at
the ranks it goes from and to.

The order is asked of the writer alone, at three of its calls. It says what a schedule has to do for
the writer not to find the reader missing, and it does not hold the reader back anywhere. -/

/-- The step is one of the program or its normal exit. -/
def Act.unharmed : Act → Bool
  | .run _ | .exit => true
  | .err _ | .kill => false

/-- Nobody is killed, and no call fails on its own account. -/
def Unharmed (_ : State) : Event → Prop
  | .writer _ a | .reader _ a => a.unharmed = true

/-- The writer does not overtake the reader: it checks for it once it has connected, leaves
    after its last check, and removes the set after its last post. -/
def State.inOrder (s : State) : Event → Bool
  | .writer i (.run _) => s.writers[i]?.all fun w => s.readers.all fun r =>
      (w.pc ≠ .checkNumProc || r.connected) && (w.pc ≠ .endWr || r.pc.pastCheck) &&
        (w.pc ≠ .deleteSem || r.pc.leftLoop)
  | _ => true

/-- The condition of the runs of this module. -/
def Orderly (s : State) (e : Event) : Prop := Unharmed s e ∧ s.inOrder e = true

instance (s : State) (e : Event) : Decidable (Unharmed s e) :=
  match e with
  | .writer _ a | .reader _ a => inferInstanceAs (Decidable (a.unharmed = true))

instance (s : State) (e : Event) : Decidable (Orderly s e) :=
  inferInstanceAs (Decidable (_ ∧ _))

/-- A completed operation of the writer keeps the ranks in step. -/
theorem WriterOp.lockstep {pc next : WriterPc} {ops : List (Sembuf SEM)} {adj adj' : SEM → Int}
    {b len : Nat} (ho : WriterOp pc ops next) (hd : semop ops v adj = .done v' adj')
    (h : Lockstep pc.rank b (v .full) (v .empty) (v .syncRd) (v .syncWr) len)
    (hloop : pc = .vFull → (next = .pEmpty ↔ 0 < len)) (hend : pc = .endWr → 7 ≤ b) :
    Lockstep next.rank b (v' .full) (v' .empty) (v' .syncRd) (v' .syncWr) len := by
  have hsame : ∀ x, net x ops = 0 → v' x = v x := fun x => semop_unchanged hd
  cases ho with
  | alone =>
    rw [hsame .full rfl, hsame .empty rfl, hsame .syncRd rfl, hsame .syncWr rfl]
    exact h.writerQuiet 1 (by decide)
  | wait =>
    rw [hsame .full rfl, hsame .empty rfl, hsame .syncRd rfl, hsame .syncWr rfl]
    exact h.writerQuiet 2 (by decide)
  | syncRead =>
    rw [hsame .full rfl, hsame .empty rfl, semop_succ hd rfl, hsame .syncWr rfl]
    exact h.writerPosts rfl
  | syncWrite =>
    obtain ⟨hpred, hpos⟩ := semop_pred (s := SEM.syncWr) hd rfl
    rw [hsame .full rfl, hsame .empty rfl, hsame .syncRd rfl, hpred]
    exact h.writerConnects rfl hpos
  | pEmpty =>
    obtain ⟨hpred, hpos⟩ := semop_pred (s := SEM.empty) hd rfl
    rw [hsame .full rfl, hpred, hsame .syncRd rfl, hsame .syncWr rfl]
    exact h.writerTakes rfl hpos
  | check =>
    rw [hsame .full rfl, hsame .empty rfl, hsame .syncRd rfl, hsame .syncWr rfl]
    exact h.writerQuiet 8 (by decide)
  | vFull =>
    rw [semop_succ hd rfl, hsame .empty rfl, hsame .syncRd rfl, hsame .syncWr rfl]
    exact h.writerGives rfl ((hloop rfl).mp rfl)
  | vFullLast =>
    rw [semop_succ hd rfl, hsame .empty rfl, hsame .syncRd rfl, hsame .syncWr rfl]
    refine h.writerGivesLast rfl (Nat.eq_zero_of_not_pos fun hpos => ?_)
    exact WriterPc.noConfusion ((hloop rfl).mpr hpos)
  | endWr =>
    rw [hsame .full rfl, hsame .empty rfl, hsame .syncRd rfl, hsame .syncWr rfl]
    exact h.writerEnds rfl (hend rfl)

/-- A completed operation of the reader keeps the ranks in step. -/
theorem ReaderOp.lockstep {pc next : ReaderPc} {ops : List (Sembuf SEM)} {adj adj' : SEM → Int}
    {a len : Nat} (ho : ReaderOp pc ops next) (hd : semop ops v adj = .done v' adj')
    (h : Lockstep a pc.rank (v .full) (v .empty) (v .syncRd) (v .syncWr) len)
    (hloop : pc = .vEmpty → (next = .pFull ↔ 0 < len)) :
    Lockstep a next.rank (v' .full) (v' .empty) (v' .syncRd) (v' .syncWr) len := by
  have hsame : ∀ x, net x ops = 0 → v' x = v x := fun x => semop_unchanged hd
  cases ho with
  | alone =>
    rw [hsame .full rfl, hsame .empty rfl, hsame .syncRd rfl, hsame .syncWr rfl]
    exact h.readerQuiet 1 (by decide)
  | wait =>
    rw [hsame .full rfl, hsame .empty rfl, hsame .syncRd rfl, hsame .syncWr rfl]
    exact h.readerQuiet 2 (by decide)
  | syncWrite =>
    rw [hsame .full rfl, hsame .empty rfl, hsame .syncRd rfl, semop_succ hd rfl]
    exact h.readerPosts rfl
  | syncRead =>
    obtain ⟨hpred, hpos⟩ := semop_pred (s := SEM.syncRd) hd rfl
    rw [hsame .full rfl, hsame .empty rfl, hpred, hsame .syncWr rfl]
    exact h.readerConnects rfl hpos
  | pFull =>
    obtain ⟨hpred, hpos⟩ := semop_pred (s := SEM.full) hd rfl
    rw [hpred, hsame .empty rfl, hsame .syncRd rfl, hsame .syncWr rfl]
    exact h.readerTakes rfl hpos
  | check =>
    rw [hsame .full rfl, hsame .empty rfl, hsame .syncRd rfl, hsame .syncWr rfl]
    exact h.readerQuiet 7 (by decide)
  | vEmpty =>
    rw [hsame .full rfl, semop_succ hd rfl, hsame .syncRd rfl, hsame .syncWr rfl]
    exact h.readerGives rfl ((hloop rfl).mp rfl)
  | vEmptyLast =>
    rw [hsame .full rfl, semop_succ hd rfl, hsame .syncRd rfl, hsame .syncWr rfl]
    refine h.readerGivesLast rfl (Nat.eq_zero_of_not_pos fun hpos => ?_)
    exact ReaderPc.noConfusion ((hloop rfl).mpr hpos)
  | endRd =>
    rw [hsame .full rfl, hsame .syncRd rfl, hsame .syncWr rfl]
    exact h.readerEnds (.inl ⟨rfl, rfl⟩) _

/-- No operation stands at the end of the program or leads there, and none leads to `v_full`. -/
theorem WriterOp.pcs {pc next : WriterPc} {ops : List (Sembuf SEM)} (ho : WriterOp pc ops next) :
    pc ≠ .returned ∧ next ≠ .returned ∧ next ≠ .vFull := by
  cases ho <;> exact ⟨WriterPc.noConfusion, WriterPc.noConfusion, WriterPc.noConfusion⟩

/-- The writer has moved, and the set is still there. -/
theorem InStep.writerTo (h : InStep s w r) (hws : t.writers = [w']) (hrs : t.readers = [r])
    (hrun : w'.task.life = .running) {v₀ : SEM → Nat} (hsems : t.sems = some v₀)
    (hpc : w'.pc ≠ .returned) (hlock : Lockstep w'.pc.rank r.pc.rank (v₀ .full) (v₀ .empty)
      (v₀ .syncRd) (v₀ .syncWr) t.shmLen)
    (hlen : t.shmLen = s.shmLen ∨ r.pc.rank ≤ 5)
    (hstored : w'.pc = .vFull → t.shmLen = w'.numSymb.toNat)
    (hfile : w'.pos ≤ w'.file.length) : InStep t w' r where
  writers := hws
  readers := hrs
  writer := .inl hrun
  reader := h.reader
  sems v hv := by
    obtain rfl := Option.some_inj.mp (hsems.symm.trans hv)
    exact ⟨hpc, hlock⟩
  gone hnone := by
    rw [hsems] at hnone
    cases hnone
  awake := h.awake
  taken hr := by
    rcases hlen with hlen | hlen
    · rw [hlen]
      exact h.taken hr
    · rcases hr with hr | hr <;> rw [hr] at hlen <;> exact absurd hlen (by decide)
  stored := hstored
  inFile := hfile

/-- The orders of the writer, at its call. -/
theorem InStep.orders (h : InStep s w r) {k : Nat} (ho : Orderly s (.writer 0 (.run k))) :
    (w.pc = .checkNumProc → r.connected = true) ∧ (w.pc = .endWr → 7 ≤ r.pc.rank) ∧
      (w.pc = .deleteSem → 10 ≤ r.pc.rank) := by
  have hall : ((w.pc ≠ .checkNumProc || r.connected) && (w.pc ≠ .endWr || r.pc.pastCheck) &&
      (w.pc ≠ .deleteSem || r.pc.leftLoop)) = true := by
    have horder := ho.2
    rw [State.inOrder, h.writers] at horder
    simpa [h.readers] using horder
  rw [← ReaderPc.pastCheck_iff, ← ReaderPc.leftLoop_iff]
  simp only [ne_eq, Bool.and_eq_true, Bool.or_eq_true, decide_eq_true_eq] at hall
  obtain ⟨⟨hc, he⟩, hd⟩ := hall
  exact ⟨fun hpc => hc.resolve_left fun hne => hne hpc,
    fun hpc => he.resolve_left fun hne => hne hpc, fun hpc => hd.resolve_left fun hne => hne hpc⟩

/-- A call of the writer in order does not fail. -/
theorem InStep.writer_noFail (h : InStep s w r) (hacc : s.Accounted)
    (hrun : w.task.life = .running) (hcheck : w.pc = .checkNumProc → r.connected = true) :
    ¬WriterFails s w := by
  have hthere : w.pc ≠ .returned → s.sems ≠ none := fun hne hnone => hne (h.gone hnone).1
  intro hf
  cases hf with
  | @semop ops next e hop hcall =>
    rw [State.semop] at hcall
    cases hv : s.sems with
    | none => exact hthere hop.pcs.1 hv
    | some v =>
      simp only [hv] at hcall
      rcases h.writer_call (hacc v hv) hv hrun hop hcheck with ⟨v', adj, hd⟩ | ⟨hw, -⟩
      · simp only [hd, reduceCtorEq] at hcall
      · simp only [hw, reduceCtorEq] at hcall
  | setval hpc hnone => exact hthere (by rw [hpc]; decide) hnone

/-- Nobody looks at adjustments here. -/
theorem InStep.clearAll (h : InStep s w r) (sem : SEM) :
    InStep (s.clearAll sem) (w.clear sem) (r.clear sem) where
  writers := by rw [State.clearAll, h.writers]; rfl
  readers := by rw [State.clearAll, h.readers]; rfl
  writer := h.writer
  reader := h.reader
  sems := h.sems
  gone := h.gone
  awake := h.awake
  taken := h.taken
  stored := h.stored
  inFile := h.inFile

/-- What the writer does without the semaphores. The `read` keeps inside the file and the stores
    fill a page that no reader looks at. -/
theorem InStep.writerLocal (h : InStep s w r) (hrun : w.task.life = .running) {shmLen : Nat}
    {shmData : List Byte} (hl : WriterLocal s w w' shmLen shmData) :
    InStep ({ s with shmLen := shmLen, shmData := shmData }.setWriter 0 w') w' r := by
  have hset : s.writers.set 0 w' = [w'] := by
    rw [h.writers]
    rfl
  have hthere : w.pc ≠ .returned → ∃ v, s.sems = some v ∧
      Lockstep w.pc.rank r.pc.rank (v .full) (v .empty) (v .syncRd) (v .syncWr) s.shmLen := by
    intro hne
    cases hv : s.sems with
    | none => exact absurd (h.gone hv).1 hne
    | some v => exact ⟨v, rfl, (h.sems v hv).2⟩
  cases hl with
  | sleep hop =>
    obtain ⟨v, hv, hlock⟩ := hthere hop.pcs.1
    exact h.writerTo hset h.readers hrun hv hop.pcs.1 hlock (.inl rfl) h.stored h.inFile
  | openFile hpc =>
    obtain ⟨v, hv, hlock⟩ := hthere (by rw [hpc]; decide)
    rw [hpc] at hlock
    exact h.writerTo hset h.readers hrun hv WriterPc.noConfusion (hlock.writerQuiet 6 (by decide))
      (.inl rfl) (fun hc => WriterPc.noConfusion hc) h.inFile
  | read k hpc hk =>
    obtain ⟨v, hv, hlock⟩ := hthere (by rw [hpc]; decide)
    rw [hpc] at hlock
    exact h.writerTo hset h.readers hrun hv WriterPc.noConfusion (hlock.writerQuiet 9 (by decide))
      (.inl rfl) (fun hc => WriterPc.noConfusion hc) hk
  | memcpy hpc =>
    obtain ⟨v, hv, hlock⟩ := hthere (by rw [hpc]; decide)
    rw [hpc] at hlock
    exact h.writerTo hset h.readers hrun hv WriterPc.noConfusion (hlock.writerQuiet 10 (by decide))
      (.inl rfl) (fun hc => WriterPc.noConfusion hc) h.inFile
  | storeNumSymb hpc =>
    obtain ⟨v, hv, hlock⟩ := hthere (by rw [hpc]; decide)
    rw [hpc] at hlock
    -- the reader is not at the page
    have hrank := (hlock.writing (by decide) (by decide)).2.2
    exact h.writerTo hset h.readers hrun hv WriterPc.noConfusion (hlock.writerStores rfl _)
      (.inr hrank) (fun _ => rfl) h.inFile
  | closeFile hpc =>
    obtain ⟨v, hv, hlock⟩ := hthere (by rw [hpc]; decide)
    rw [hpc] at hlock
    exact h.writerTo hset h.readers hrun hv WriterPc.noConfusion (hlock.writerQuiet 13 (by decide))
      (.inl rfl) (fun hc => WriterPc.noConfusion hc) h.inFile
  | unlinkShm hpc =>
    obtain ⟨v, hv, hlock⟩ := hthere (by rw [hpc]; decide)
    rw [hpc] at hlock
    exact h.writerTo hset h.readers hrun hv WriterPc.noConfusion (hlock.writerQuiet 15 (by decide))
      (.inl rfl) (fun hc => WriterPc.noConfusion hc) h.inFile
  | deleteShm hpc =>
    obtain ⟨v, hv, hlock⟩ := hthere (by rw [hpc]; decide)
    rw [hpc] at hlock
    exact h.writerTo hset h.readers hrun hv WriterPc.noConfusion (hlock.writerQuiet 16 (by decide))
      (.inl rfl) (fun hc => WriterPc.noConfusion hc) h.inFile

/-- **The calls of the writer** in order keep the pair in step; none of them fails. -/
theorem InStep.writerMove (h : InStep s w r) (hacc : s.Accounted) {k : Nat}
    (hrun : w.task.life = .running) (ho : Orderly s (.writer 0 (.run k)))
    (hm : WriterMove s 0 w t) : ∃ w' r', InStep t w' r' := by
  obtain ⟨hcheck, hend, hdelete⟩ := h.orders ho
  have hset : ∀ {w'}, s.writers.set 0 w' = [w'] := by
    intro w'
    rw [h.writers]
    rfl
  have hthere : w.pc ≠ .returned → ∃ v, s.sems = some v := by
    intro hne
    cases hv : s.sems with
    | none => exact absurd (h.gone hv).1 hne
    | some v => exact ⟨v, rfl⟩
  cases hm with
  | @semop ops next v v' adj hop hn hv hd =>
    have hloop : w.pc = .vFull → (next = .pEmpty ↔ 0 < s.shmLen) := by
      intro hpc
      rw [h.stored hpc, hn hpc]
      omega
    have hlock := hop.lockstep hd (h.sems v hv).2 hloop hend
    obtain ⟨-, hnext, hnot⟩ := hop.pcs
    refine ⟨{ w with task := { w.task with adj := adj, asleep := false }, pc := next }, r, ?_⟩
    exact h.writerTo hset h.readers hrun rfl hnext hlock (.inl rfl)
      (fun hpc => absurd hpc hnot) h.inFile
  | @setval v hpc hv =>
    have hlock := (h.sems v hv).2
    rw [hpc] at hlock
    have hfull : setval v .full 0 .full = v .full := by
      rw [setval_self]
      exact (hlock.first (by decide)).1.symm
    have hkeep : ∀ x, x ≠ .full → setval v .full 0 x = v x := fun x hx => setval_of_ne hx v 0
    refine ⟨{ w.clear .full with pc := .syncRead }, r.clear .full, ?_⟩
    refine (h.clearAll .full).writerTo ?_ (h.clearAll .full).readers hrun rfl
      WriterPc.noConfusion ?_ (.inl rfl) (fun hc => WriterPc.noConfusion hc) h.inFile
    · change (s.clearAll .full).writers.set 0 _ = _
      rw [(h.clearAll .full).writers]
      rfl
    · rw [hfull, hkeep .empty (by decide), hkeep .syncRd (by decide), hkeep .syncWr (by decide)]
      exact hlock.writerQuiet 3 (by decide)
  | quiet hl => exact ⟨_, r, h.writerLocal hrun hl⟩
  | fail hf => exact absurd hf (h.writer_noFail hacc hrun hcheck)
  | remove hpc =>
    exact ⟨{ w with pc := .returned }, r, hset, h.readers, .inl hrun, h.reader,
      fun _ hv => absurd hv.symm (Option.some_ne_none _), fun _ => ⟨rfl, hdelete hpc⟩, h.awake,
      h.taken, fun hc => WriterPc.noConfusion hc, h.inFile⟩

/-- The operations of the reader stand in front of the end of its loop, or are its last one. -/
theorem ReaderOp.pcs {pc next : ReaderPc} {ops : List (Sembuf SEM)} (ho : ReaderOp pc ops next) :
    (pc.rank ≤ 9 ∨ pc = .endRd) ∧ next ≠ .write ∧ next ≠ .vEmpty := by
  cases ho <;> first
    | exact ⟨.inl (by decide), ReaderPc.noConfusion, ReaderPc.noConfusion⟩
    | exact ⟨.inr rfl, ReaderPc.noConfusion, ReaderPc.noConfusion⟩

theorem InStep.readerTo (h : InStep s w r) (hws : t.writers = [w]) (hrs : t.readers = [r'])
    (hrun : r'.task.life = .running) (hsems : ∀ v, t.sems = some v → w.pc ≠ .returned ∧
      Lockstep w.pc.rank r'.pc.rank (v .full) (v .empty) (v .syncRd) (v .syncWr) s.shmLen)
    (hgone : t.sems = none → w.pc = .returned ∧ 10 ≤ r'.pc.rank) (hlen : t.shmLen = s.shmLen)
    (hawake : r'.pc = .endRd → r'.task.asleep = false)
    (htaken : r'.pc = .write ∨ r'.pc = .vEmpty → r'.numSymb = s.shmLen) : InStep t w r' where
  writers := hws
  readers := hrs
  writer := h.writer
  reader := .inl hrun
  sems := hlen ▸ hsems
  gone := hgone
  awake := hawake
  taken := hlen ▸ htaken
  stored := hlen ▸ h.stored
  inFile := h.inFile

/-- What the reader does without the semaphores: it takes the length that is in the page, and nobody
    changes it before its `v_empty`. -/
theorem InStep.readerLocal (h : InStep s w r) (hacc : s.Accounted) (hrun : r.task.life = .running)
    (hl : ReaderLocal s r r') : InStep (s.setReader 0 r') w r' := by
  have hset : s.readers.set 0 r' = [r'] := by
    rw [h.readers]
    rfl
  have hback : ∀ {pc b b'}, r.pc = pc → pc.rank = b → ¬ 10 ≤ b → s.sems = none →
      w.pc = .returned ∧ 10 ≤ b' := by
    intro pc b b' hpc hb hlt hnone
    have hge := (h.gone hnone).2
    rw [hpc, hb] at hge
    exact absurd hge hlt
  cases hl with
  | @sleep ops next hop hcall =>
    have hnot : r.pc ≠ .endRd := by
      intro hpc
      rw [State.semop] at hcall
      cases hv : s.sems with
      | none => simp only [hv, reduceCtorEq] at hcall
      | some v =>
        simp only [hv] at hcall
        rcases h.reader_call (hacc v hv) hv hrun hop with ⟨v', adj, hd⟩ | ⟨-, hwait⟩
        · simp only [hd, reduceCtorEq] at hcall
        · rw [hpc] at hwait
          rcases hwait with ⟨hc, -⟩ | ⟨hc, -⟩ <;> cases hc
    exact h.readerTo h.writers hset hrun h.sems h.gone rfl (fun hpc => absurd hpc hnot) h.taken
  | load hpc =>
    refine h.readerTo h.writers hset hrun (fun v hv => ?_) (hback hpc rfl (by decide)) rfl
      (fun hc => ReaderPc.noConfusion hc) fun _ => rfl
    obtain ⟨hne, hlock⟩ := h.sems v hv
    rw [hpc] at hlock
    exact ⟨hne, hlock.readerQuiet 8 (by decide)⟩
  | write hpc =>
    refine h.readerTo h.writers hset hrun (fun v hv => ?_) (hback hpc rfl (by decide)) rfl
      (fun hc => ReaderPc.noConfusion hc) fun _ => h.taken (.inl hpc)
    obtain ⟨hne, hlock⟩ := h.sems v hv
    rw [hpc] at hlock
    exact ⟨hne, hlock.readerQuiet 9 (by decide)⟩
  | unlinkShm hpc =>
    refine h.readerTo h.writers hset hrun (fun v hv => ?_)
      (fun hnone => ⟨(h.gone hnone).1, show 10 ≤ ReaderPc.returned.rank by decide⟩) rfl
      (fun hc => ReaderPc.noConfusion hc) fun hc => ?_
    · obtain ⟨hne, hlock⟩ := h.sems v hv
      rw [hpc] at hlock
      exact ⟨hne, hlock.readerQuiet 12 (by decide)⟩
    · rcases hc with hc | hc <;> cases hc

/-- A call of the reader does not fail; where the set is gone it is in its last operation, which
    forgives that. -/
theorem InStep.reader_noFail (h : InStep s w r) (hacc : s.Accounted)
    (hrun : r.task.life = .running) : ¬ReaderFails s r := by
  intro hf
  cases hf with
  | @semop ops next e hop hcall hend =>
    rw [State.semop] at hcall
    cases hv : s.sems with
    | none =>
      -- the set is gone before the last operation, at which the reader is awake
      have hrank := (h.gone hv).2
      have hpc : r.pc = .endRd := hop.pcs.1.resolve_left fun hle => by omega
      simp only [hv, h.awake hpc, Bool.false_eq_true, if_false] at hcall
      cases hcall
      exact absurd ⟨hpc, rfl⟩ hend
    | some v =>
      simp only [hv] at hcall
      rcases h.reader_call (hacc v hv) hv hrun hop with ⟨v', adj, hd⟩ | ⟨hw, -⟩
      · simp only [hd, reduceCtorEq] at hcall
      · simp only [hw, reduceCtorEq] at hcall
  | setval hpc hnone =>
    have hrank := (h.gone hnone).2
    rw [hpc] at hrank
    exact absurd hrank (by decide)

/-- **The calls of the reader** keep the pair in step; the one that may find the set gone is
    its last. -/
theorem InStep.readerMove (h : InStep s w r) (hacc : s.Accounted)
    (hrun : r.task.life = .running) (hm : ReaderMove s 0 r t) : ∃ w' r', InStep t w' r' := by
  have hset : ∀ {r'}, s.readers.set 0 r' = [r'] := by
    intro r'
    rw [h.readers]
    rfl
  cases hm with
  | @semop ops next v v' adj hop hn hv hd =>
    have hloop : r.pc = .vEmpty → (next = .pFull ↔ 0 < s.shmLen) := by
      intro hpc
      rw [hn hpc, h.taken (.inr hpc)]
      omega
    obtain ⟨hne, hlock⟩ := h.sems v hv
    have hlock' := hop.lockstep hd hlock hloop
    obtain ⟨-, hwrite, hvEmpty⟩ := hop.pcs
    refine ⟨w, { r with task := { r.task with adj := adj, asleep := false }, pc := next }, ?_⟩
    refine h.readerTo h.writers hset hrun (fun v₁ hv₁ => ?_)
      (fun hc => absurd hc (Option.some_ne_none _)) rfl (fun _ => rfl) fun hc => ?_
    · obtain rfl := Option.some_inj.mp hv₁
      exact ⟨hne, hlock'⟩
    · rcases hc with hc | hc
      · exact absurd hc hwrite
      · exact absurd hc hvEmpty
  | @setval v hpc hv =>
    obtain ⟨hne, hlock⟩ := h.sems v hv
    rw [hpc] at hlock
    have hkeep : ∀ x, x ≠ .empty → setval v .empty 1 x = v x := fun x hx => setval_of_ne hx v 1
    refine ⟨w.clear .empty, { r.clear .empty with pc := .syncWrite }, ?_⟩
    refine (h.clearAll .empty).readerTo (h.clearAll .empty).writers ?_ hrun (fun v₁ hv₁ => ?_)
      (fun hc => absurd hc (Option.some_ne_none _)) rfl (fun hc => ReaderPc.noConfusion hc)
      fun hc => ?_
    · change (s.clearAll .empty).readers.set 0 _ = _
      rw [(h.clearAll .empty).readers]
      rfl
    · obtain rfl := Option.some_inj.mp hv₁
      rw [setval_self, hkeep .full (by decide), hkeep .syncRd (by decide),
        hkeep .syncWr (by decide)]
      exact ⟨hne, hlock.readerSets rfl⟩
    · rcases hc with hc | hc <;> cases hc
  | quiet hl => exact ⟨w, _, h.readerLocal hacc hrun hl⟩
  | fail hf => exact absurd hf (h.reader_noFail hacc hrun)
  | endGone hpc hnone =>
    refine ⟨w, { r with pc := .unlinkShm }, ?_⟩
    refine h.readerTo h.writers hset hrun (fun v hv => ?_)
      (fun _ => ⟨(h.gone hnone).1, show 10 ≤ ReaderPc.unlinkShm.rank by decide⟩) rfl
      (fun hc => ReaderPc.noConfusion hc) fun hc => ?_
    · rw [show (s.setReader 0 { r with pc := .unlinkShm }).sems = s.sems from rfl, hnone] at hv
      cases hv
    · rcases hc with hc | hc <;> cases hc

/-- The writer goes with nothing to give back. -/
theorem InStep.writerExit (h : InStep s w r) (hpc : w.pc = .returned) :
    InStep (s.exitWriter 0 w) { w with task := w.task.gone } r := by
  have hnone : s.sems = none := by
    cases hv : s.sems with
    | none => rfl
    | some v => exact absurd hpc (h.sems v hv).1
  have hnone' : (s.exitWriter 0 w).sems = none := by
    change s.sems.map _ = none
    rw [hnone, Option.map_none]
  refine ⟨?_, h.readers, .inr ⟨rfl, hpc⟩, h.reader, fun v hv => ?_, fun _ => h.gone hnone, h.awake,
    h.taken, h.stored,
    h.inFile⟩
  · change s.writers.set 0 _ = _
    rw [h.writers]
    rfl
  · rw [hnone'] at hv
    cases hv

/-- The reader goes too. It may give back one too many for EMPTY, which means nothing by then. -/
theorem InStep.readerExit (h : InStep s w r) (hacc : s.Accounted) (hrun : r.task.life = .running)
    (hpc : r.pc = .returned) : InStep (s.exitReader 0 r) w { r with task := r.task.gone } := by
  refine ⟨h.writers, ?_, h.writer, .inr ⟨rfl, hpc⟩, fun v' hv' => ?_, fun hnone => ?_,
    fun hc => absurd (hpc.symm.trans hc) ReaderPc.noConfusion, h.taken, h.stored,
    h.inFile⟩
  · change s.readers.set 0 _ = _
    rw [h.readers]
    rfl
  · cases hv : s.sems with
    | none =>
      change s.sems.map _ = _ at hv'
      rw [hv] at hv'
      cases hv'
    | some v =>
      change s.sems.map _ = _ at hv'
      rw [hv, Option.map_some] at hv'
      obtain rfl := Option.some_inj.mp hv'
      obtain ⟨hne, hlock⟩ := h.sems v hv
      have hnear := (hacc v hv).readers r (h.readers ▸ List.mem_singleton_self r)
        (Task.live_running hrun)
      have hkeep : ∀ x, x ≠ .empty → adjRd r.pc.phase x = 0 → undoExit v r.task.adj x = v x :=
        fun x hx hz => undoExit_of_eq_zero ((hnear x (.inl hx)).trans hz) ((hacc v hv).le_max x)
      rw [hkeep .full (by decide) rfl, hkeep .syncRd (by decide) rfl, hkeep .syncWr (by decide) rfl]
      refine ⟨hne, ?_⟩
      change Lockstep w.pc.rank r.pc.rank _ _ _ _ s.shmLen
      rw [hpc] at hlock ⊢
      exact hlock.readerEnds (.inr ⟨rfl, rfl⟩) _
  · refine h.gone ?_
    change s.sems.map _ = none at hnone
    exact Option.map_eq_none_iff.mp hnone

/-- **One step of the pair in order.** -/
theorem InStep.step (h : InStep s w r) (hacc : s.Accounted) (ho : Orderly s e)
    (hs : Steps s e t) : ∃ w' r', InStep t w' r' := by
  cases hs with
  | writerMove hw hrun hm =>
    obtain ⟨rfl, rfl⟩ := eq_of_getElem?_single h.writers hw
    exact h.writerMove hacc hrun ho hm
  | writerErr => cases ho.1
  | writerExit hw hlive hor =>
    obtain ⟨rfl, rfl⟩ := eq_of_getElem?_single h.writers hw
    rcases hor with ⟨rfl, hfail | hpc⟩ | rfl
    · rcases h.writer with hrun | ⟨hdead, -⟩
      · rw [hrun] at hfail
        cases hfail
      · exact absurd hdead hlive
    · exact ⟨_, r, h.writerExit hpc⟩
    · cases ho.1
  | readerMove hr hrun hm =>
    obtain ⟨rfl, rfl⟩ := eq_of_getElem?_single h.readers hr
    exact h.readerMove hacc hrun hm
  | readerErr => cases ho.1
  | readerExit hr hlive hor =>
    obtain ⟨rfl, rfl⟩ := eq_of_getElem?_single h.readers hr
    rcases hor with ⟨rfl, hfail | hpc⟩ | rfl
    · rcases h.reader with hrun | ⟨hdead, -⟩
      · rw [hrun] at hfail
        cases hfail
      · exact absurd hdead hlive
    · exact ⟨w, _, h.readerExit hacc (h.reader.resolve_right fun hd => hlive hd.1) hpc⟩
    · cases ho.1

end CompTech.Sharmem
