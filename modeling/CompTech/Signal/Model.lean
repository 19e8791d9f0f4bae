import CompTech.Lib.Run
import CompTech.Lib.Bits

/-!
# The processes of the signal transfer

`main.c` of the signal task, after `fork ()`. The child reads the file letter by letter and sends
each letter bit by bit: `SIGUSR1` for a clear bit, `SIGUSR2` for a set one, and then it waits for
the parent's `SIGUSR2`. The parent waits for a signal, puts the bit into `cur_letter`, answers,
and writes the letter after eight bits. The child's end comes as `SIGCHLD`.

All signals are blocked but in `sigsuspend`, which unblocks and waits in one step: a pending
signal is delivered there, its handler runs, and the call returns. Signals are not queued, so a
pending signal is a flag. A `char` is signed and has 8 bits, an `int` 32.

A step of the child carries whether its call succeeds; where a call fails, `ERROR_INFO` makes it
exit with `EXIT_FAILURE`. The calls of the parent succeed.

The handlers are part of the parent's step: a signal that is delivered runs its handler at once, and
what it leaves in `BIT` or `IS_CHILD_DIED` is looked at when `sigsuspend` has returned.
-/

namespace CompTech.Signal

/-- A `char`. -/
abbrev Letter := BitVec 8

/-! ## Chars in ints -/

/-- `mask = 0b1 << i` -/
def maskOf (i : Nat) : Letter := (1#32 <<< i).setWidth 8

/-- `cur_letter | mask` -/
def setBit (curLetter mask : Letter) : Letter :=
  (curLetter.signExtend 32 ||| mask.signExtend 32).setWidth 8

/-- `cur_letter & (~mask)` -/
def clearBit (curLetter mask : Letter) : Letter :=
  (curLetter.signExtend 32 &&& ~~~mask.signExtend 32).setWidth 8

/-- `mask & cur_letter` -/
def bitOf (mask curLetter : Letter) : Letter :=
  (mask.signExtend 32 &&& curLetter.signExtend 32).setWidth 8

/-! ## The state -/

/-- The signals the parent has handlers for. -/
inductive Sig
  | usr1
  | usr2
  | chld
  deriving DecidableEq, Repr

/-- What `wait3` says of a process. -/
inductive Status
  | exited (code : Nat)
  | signaled
  deriving DecidableEq, Repr

/-- The two codes of `exit`. -/
def EXIT_SUCCESS : Nat := 0
def EXIT_FAILURE : Nat := 1

/-- The test of the handler of `SIGCHLD`. It says whether the child has called `exit`, not with
    what. -/
def WIFEXITED : Status → Bool
  | .exited _ => true
  | .signaled => false

/-- Where the parent stands. -/
inductive ParentPc
  -- in `sigsuspend`, for bit `i`
  | suspended (i : Nat)
  -- a handler has run
  | woken (i : Nat)
  -- before `kill (chld_pid, SIGUSR2)`
  | acking (i : Nat)
  -- before `write`
  | writing
  | exited (code : Nat)
  deriving DecidableEq, Repr

/-- Where the child stands. -/
inductive ChildPc
  -- before `open`
  | opening
  -- before `read`
  | reading
  -- before the `kill` of bit `i`
  | sending (i : Nat)
  -- in `sigsuspend`, after bit `i`
  | suspended (i : Nat)
  -- before `close`
  | closing
  | exited (code : Nat)
  deriving DecidableEq, Repr

/-- Both processes, the pending signals, the file and the screen. -/
structure State where
  parent : ParentPc
  -- the parent's `cur_letter`
  curLetter : Letter
  BIT : Nat
  IS_CHILD_DIED : Nat
  child : ChildPc
  -- the child's `cur_letter`
  letter : Letter
  -- what the child has not read yet
  rest : List Letter
  -- pending for the parent
  usr1 : Bool
  usr2 : Bool
  chld : Bool
  -- `SIGUSR2`, pending for the child
  ack : Bool
  -- what the parent has written
  out : List Letter
  deriving DecidableEq, Repr

/-- Both behind `fork`, with all signals blocked. -/
def start (file : List Letter) : State :=
  ⟨.suspended 0, 0, 0, 0, .opening, 0, file, false, false, false, false, []⟩

/-! ## The handlers -/

/-- Whether a signal is pending for the parent. -/
def State.pending (s : State) : Sig → Bool
  | .usr1 => s.usr1
  | .usr2 => s.usr2
  | .chld => s.chld

/-- `wait3 (&status, WNOHANG, NULL)`; a child that runs on leaves the 0 in `status`. -/
def State.wait3 (s : State) : Status :=
  match s.child with
  | .exited code => .exited code
  | _ => .exited 0

/-- What the handler leaves. -/
def State.handle (s : State) (pc : ParentPc) : Sig → State
  | .usr1 => { s with parent := pc, usr1 := false, BIT := 0 }
  | .usr2 => { s with parent := pc, usr2 := false, BIT := 1 }
  | .chld =>
    if WIFEXITED s.wait3 then { s with parent := pc, chld := false, IS_CHILD_DIED := 1 }
    else { s with parent := .exited EXIT_FAILURE, chld := false }

/-- A pending signal is delivered; a second one may be before `sigsuspend` returns. -/
def deliver (s : State) (sig : Sig) : Option State :=
  match s.parent with
  | .suspended i | .woken i => if s.pending sig then some (s.handle (.woken i) sig) else none
  | .acking _ | .writing | .exited _ => none

/-! ## The two loops -/

/-- The parent's own steps; what wakes it is `deliver`. -/
def parentStep (s : State) : Option State :=
  match s.parent with
  | .suspended _ => none
  | .woken i =>
    if s.IS_CHILD_DIED ≠ 0 then some { s with parent := .exited EXIT_SUCCESS }
    else
      let curLetter :=
        if s.BIT = 1 then setBit s.curLetter (maskOf i) else clearBit s.curLetter (maskOf i)
      some { s with parent := .acking i, curLetter := curLetter }
  | .acking i =>
    some { s with parent := if i + 1 < 8 then .suspended (i + 1) else .writing, ack := true }
  | .writing =>
    some { s with parent := .suspended 0, out := s.out ++ [s.curLetter], curLetter := 0 }
  | .exited _ => none

/-- `exit`: the kernel tells the parent. -/
def State.childExit (s : State) (code : Nat) : State :=
  { s with child := .exited code, chld := true }

/-- `ok` says whether the call succeeds. -/
def childStep (s : State) (ok : Bool) : Option State :=
  match s.child with
  | .opening =>
    some (if ok then { s with child := .reading } else s.childExit EXIT_FAILURE)
  | .reading =>
    if ok then
      match s.rest with
      | [] => some { s with child := .closing }
      | c :: rest => some { s with child := .sending 0, letter := c, rest := rest }
    else some (s.childExit EXIT_FAILURE)
  | .sending i =>
    if ok then
      if bitOf (maskOf i) s.letter = 0 then
        some { s with child := .suspended i, usr1 := true }
      else some { s with child := .suspended i, usr2 := true }
    else some (s.childExit EXIT_FAILURE)
  | .suspended i =>
    -- no call that could fail; the letter is forgotten after its last bit
    if ok ∧ s.ack then
      some (if i + 1 < 8 then { s with child := .sending (i + 1), ack := false }
        else { s with child := .reading, ack := false, letter := 0 })
    else none
  | .closing => some (s.childExit (if ok then EXIT_SUCCESS else EXIT_FAILURE))
  | .exited _ => none

/-- A step of one process, or a signal. -/
inductive Act
  | parent
  | deliver (sig : Sig)
  | child (ok : Bool)
  deriving DecidableEq, Repr

/-- One step. -/
def step (s : State) : Act → Option State
  | .parent => parentStep s
  | .deliver sig => deliver s sig
  | .child ok => childStep s ok

/-! ## The letter -/

section

variable {i : Nat} {x : Letter}

/-- Widening a `char` to an `int` and back changes nothing. -/
theorem setWidth_signExtend (x : Letter) : (x.signExtend 32).setWidth 8 = x := by
  refine BitVec.eq_of_getLsbD_eq fun k hk => ?_
  rw [BitVec.getLsbD_setWidth, BitVec.getLsbD_signExtend, if_pos hk]
  simp [hk, show k < 32 by omega]

/-- The mask of bit `i`. -/
theorem maskOf_eq (hi : i < 8) : maskOf i = 1#8 <<< i := by
  refine BitVec.eq_of_getLsbD_eq fun k hk => ?_
  rw [maskOf, BitVec.getLsbD_setWidth, Lib.getLsbD_one_shiftLeft (by omega),
    Lib.getLsbD_one_shiftLeft hi]
  simp [hk]

theorem setBit_eq (c m : Letter) : setBit c m = c ||| m := by
  rw [setBit, BitVec.setWidth_or, setWidth_signExtend, setWidth_signExtend]

theorem clearBit_eq (c m : Letter) : clearBit c m = c &&& ~~~m := by
  rw [clearBit, BitVec.setWidth_and, BitVec.setWidth_not (by omega), setWidth_signExtend,
    setWidth_signExtend]

theorem bitOf_eq_zero_iff (hi : i < 8) : bitOf (maskOf i) x = 0 ↔ x.getLsbD i = false := by
  have hbits : ∀ k, k < 8 → (bitOf (maskOf i) x).getLsbD k = (decide (k = i) && x.getLsbD k) := by
    intro k hk
    rw [bitOf, BitVec.setWidth_and, setWidth_signExtend, setWidth_signExtend, maskOf_eq hi,
      BitVec.getLsbD_and, Lib.getLsbD_one_shiftLeft hi]
  constructor
  · intro hzero
    have h := hbits i hi
    rw [hzero] at h
    simpa using h.symm
  · intro hclear
    refine BitVec.eq_of_getLsbD_eq fun k hk => ?_
    rw [hbits k hk]
    by_cases hki : k = i
    · simp [hki, hclear]
    · simp [hki]

/-- The parent's letter after one more bit. -/
theorem low_step (hi : i < 8) : (if x.getLsbD i then setBit (Lib.low i x) (maskOf i)
    else clearBit (Lib.low i x) (maskOf i)) = Lib.low (i + 1) x := by
  rw [setBit_eq, clearBit_eq, maskOf_eq hi]
  cases hx : x.getLsbD i with
  | true => exact Lib.low_set hi hx
  | false => exact Lib.low_clear hi hx

end

end CompTech.Signal
