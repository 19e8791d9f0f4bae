import CompTech.Lib.Run

/-!
# The processes of the queue program

`main.c` and `queue.c` of the message queue task. The parent forks `num_proc` children, child `k`
with `i_proc = k`; then it posts the types `1, …, num_proc` one after another and waits for a
message of type `num_proc + 1` in between. Child `k` waits for its own type, prints its number
and answers.

A message is its type. The queue is the list of the messages on it, oldest first, and is `none`
once it is removed; every later call on it fails and the caller exits. It holds `cap` messages,
and a `msgsnd` on a full queue waits, as a `msgrcv` does that finds no message of its type. The
counts are `int`s below `INT_MAX` and never wrap.

There are `n + 1` processes and one queue, and a step is the next call of one of them. A child is
created with its number, as `fork` copies `*i_proc`, and keeps it. That the `i_proc` of a child and
its place among the children agree is not built in; `Order` proves it.
-/

namespace CompTech.Queue

/-! ## The calls -/

/-- `msgsnd (id, &msg, 0, 0)`; `none` while the queue is full. -/
def msgsnd (cap : Nat) (queue : List Nat) (type : Nat) : Option (List Nat) :=
  if queue.length < cap then some (queue ++ [type]) else none

/-- `msgrcv (id, &msg, 0, type, 0)` with a positive type: it takes the first message of that type
    and waits, `none`, while there is none. -/
def msgrcv (queue : List Nat) (type : Nat) : Option (List Nat) :=
  if type ∈ queue then some (queue.erase type) else none

theorem msgrcv_nil (type : Nat) : msgrcv [] type = none := rfl

@[simp] theorem msgrcv_self (type : Nat) : msgrcv [type] type = some [] := by
  simp [msgrcv]

theorem msgrcv_of_ne {type other : Nat} (h : type ≠ other) : msgrcv [other] type = none := by
  simp [msgrcv, h]

theorem msgsnd_nil {cap : Nat} (h : 1 ≤ cap) (type : Nat) : msgsnd cap [] type = some [type] := by
  simp [msgsnd, Nat.lt_of_lt_of_le Nat.zero_lt_one h]

/-! ## The processes -/

/-- Where a child stands. -/
inductive ChildPc
  -- before its `msgrcv`
  | waiting
  -- before its `printf`
  | printing
  -- before its `msgsnd`
  | answering
  -- only `exit (EXIT_SUCCESS)` is left
  | done
  -- a call has failed: only `exit (EXIT_FAILURE)` is left
  | failed
  deriving DecidableEq, Repr

/-- A child with the `*i_proc` it was forked with. -/
structure Child where
  iProc : Nat
  pc : ChildPc
  deriving DecidableEq, Repr

/-- Where the parent stands. -/
inductive ParentPc
  -- in `create_procs`, with this `*i_proc`
  | forking (iProc : Nat)
  -- before the `msgsnd` of round `i`
  | posting (i : Nat)
  -- before the `msgrcv` of round `i`
  | collecting (i : Nat)
  -- before `delete_msg`
  | deleting
  | done
  | failed
  deriving DecidableEq, Repr

/-- The processes, the queue and the screen. -/
structure State where
  parent : ParentPc
  -- in the order of their creation
  children : List Child
  queue : Option (List Nat)
  -- the numbers on the screen, each with the child it is from
  printed : List (Nat × Nat)
  deriving DecidableEq, Repr

/-- A fresh queue, and the parent in front of `create_procs`. -/
def start : State := ⟨.forking 1, [], some [], []⟩

section

variable (cap n : Nat)

/-- The next call of the parent. -/
def parentStep (s : State) : Option State :=
  match s.parent with
  | .forking iProc =>
    if iProc < n + 1 then
      some { s with parent := .forking (iProc + 1), children := s.children ++ [⟨iProc, .waiting⟩] }
    -- the children are there; the parent goes back to `main`
    else some { s with parent := .posting 1 }
  | .posting i =>
    if i < n + 1 then
      match s.queue with
      | none => some { s with parent := .failed }
      | some queue => (msgsnd cap queue i).map fun queue =>
        { s with parent := .collecting i, queue := some queue }
    else some { s with parent := .deleting }
  | .collecting i =>
    match s.queue with
    | none => some { s with parent := .failed }
    | some queue => (msgrcv queue (n + 1)).map fun queue =>
      { s with parent := .posting (i + 1), queue := some queue }
  | .deleting => some { s with parent := .done, queue := none }
  | .done | .failed => none

/-- Child `k` moves on to `pc`. -/
def State.childTo (s : State) (k : Nat) (c : Child) (pc : ChildPc) : State :=
  { s with children := s.children.set k { c with pc := pc } }

/-- The step of the child that was created as number `k + 1`. -/
def childStep (s : State) (k : Nat) : Option State :=
  (s.children[k]?).bind fun c =>
    match c.pc with
    | .waiting =>
      match s.queue with
      | none => some (s.childTo k c .failed)
      | some queue => (msgrcv queue c.iProc).map fun queue =>
        { s.childTo k c .printing with queue := some queue }
    | .printing =>
      some { s.childTo k c .answering with printed := s.printed ++ [(k + 1, c.iProc)] }
    | .answering =>
      match s.queue with
      | none => some (s.childTo k c .failed)
      | some queue => (msgsnd cap queue (n + 1)).map fun queue =>
        { s.childTo k c .done with queue := some queue }
    | .done | .failed => none

/-- Who takes the next step. -/
inductive Act
  | parent
  | child (k : Nat)
  deriving DecidableEq, Repr

/-- One step. -/
def step (s : State) : Act → Option State
  | .parent => parentStep cap n s
  | .child k => childStep cap n s k

end

end CompTech.Queue
