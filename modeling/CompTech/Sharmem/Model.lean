import CompTech.Lib.Run
import CompTech.Lib.SysV

/-!
# The shared-memory transfer

`writer` copies a file into a shared page block by block and `reader` copies the page to
standard output; seven System V semaphores keep them in step. A state holds the semaphore set
(`none` once it is removed), the page, and the processes that work on them: any number of
writers and of readers, each stopped in front of one of its system calls or stores.

`Act.run` performs that call. A `semop` that has to wait puts the process to sleep, one that
fails sends it down its error path: it does nothing more until it exits. A process exits after
a failure or a normal return, or it is killed; in every case its adjustments are added to the
semaphores. `Act.err` is a call that fails on its own account.

The processes start with the set and the page at hand, so the calls that create and attach
them are not modelled.

The names of the operations are those of the two files; where both have an operation of that name
(`alone`, `sync_read`, `sync_write`) the writer's is in `Wr` and the reader's in `Rd`. They are
given to `semop` as whole arrays, and the call is atomic: it waits or fails as a whole. So one
program counter stands for one call, and what a process does between two calls (the locals it sets,
the test of the loop) is part of the step of the call before.

Two things of the files are simplified. The buffer `tmp_buf` is kept as what `read` put there, since
the rest of it is zero whenever it is copied. And the error path is one state, `Life.failing`: after
`ERROR_INFO` there is only the `exit`, which is a step of its own because the kernel applies the
adjustments in it.
-/

namespace CompTech.Sharmem

open Lib

abbrev Byte := BitVec 8

/-- The semaphores of the set, in the order of `sharmem_config.h`. -/
inductive SEM
  | full
  | empty
  | syncRd
  | syncWr
  | aloneRd
  | aloneWr
  | numProc
  deriving DecidableEq

/-- The size the segment is created with, and that of `tmp_buf`. -/
def PAGE_SIZE : Nat := 4096

/-- The part of the page behind the length. -/
def blockSize : Nat := PAGE_SIZE - 8

/-! ## The operations -/

/-- An operation that waits and is not undone: its flags are 0. -/
def op (num : SEM) (op : Int) : Sembuf SEM := ⟨num, op, false, false⟩

/-- An operation with `SEM_UNDO`: the kernel takes it back when the process is gone. -/
def opUndo (num : SEM) (op : Int) : Sembuf SEM := ⟨num, op, false, true⟩

/-- Wait until the pair before has left. -/
def waitPrevConnect : List (Sembuf SEM) := [op .numProc 0]

/-- Is the other side still there? With `IPC_NOWAIT` the call fails with `EAGAIN` where there are
    fewer than two; otherwise the two operations cancel. -/
def checkNumProc : List (Sembuf SEM) := [⟨.numProc, -2, true, false⟩, op .numProc 2]

namespace Wr

/-- No second writer: wait until there is none, and be it. -/
def alone : List (Sembuf SEM) := [op .aloneWr 0, opUndo .aloneWr 1]

/-- The token for the reader. It is not undone, so it stays where its writer dies. -/
def syncRead : List (Sembuf SEM) := [op .syncRd 1]

/-- Take the reader's token and be connected. The two operations on FULL leave its value and record
    a −1 to be undone: if the writer dies, the kernel adds 1 and the reader is let go on. -/
def syncWrite : List (Sembuf SEM) :=
  [op .syncWr (-1), opUndo .numProc 1, op .full 1, opUndo .full (-1)]

/-- Wait for an empty page. -/
def pEmpty : List (Sembuf SEM) := [op .empty (-1)]

/-- The page is full. -/
def vFull : List (Sembuf SEM) := [op .full 1]

/-- Leave in one call: the adjustment of FULL is given back without a change of its value, and the
    counters go down. -/
def endWr : List (Sembuf SEM) :=
  [opUndo .full 1, op .full (-1), opUndo .numProc (-1), opUndo .aloneWr (-1)]

end Wr

namespace Rd

/-- No second reader: wait until there is none, and be it. -/
def alone : List (Sembuf SEM) := [op .aloneRd 0, opUndo .aloneRd 1]

/-- The token for the writer, not undone either. -/
def syncWrite : List (Sembuf SEM) := [op .syncWr 1]

/-- Take the writer's token and be connected; the adjustment is on EMPTY here. -/
def syncRead : List (Sembuf SEM) :=
  [op .syncRd (-1), opUndo .numProc 1, op .empty 1, opUndo .empty (-1)]

/-- Wait for a full page. -/
def pFull : List (Sembuf SEM) := [op .full (-1)]

/-- The page is empty again. -/
def vEmpty : List (Sembuf SEM) := [op .empty 1]

/-- Leave. EMPTY is not given back as FULL is: the value goes down, and with the one of `sync_read`
    the kernel adds 2 at the exit. The next reader sets EMPTY to 1 anyway. -/
def endRd : List (Sembuf SEM) :=
  [opUndo .numProc (-1), opUndo .empty (-1), opUndo .aloneRd (-1)]

end Rd

/-! ## The processes -/

/-- Running is on the path of the file, failing on an error path in front of its `exit`; a dead
    process has had its adjustments applied. -/
inductive Life
  | running
  | failing
  | dead
  deriving DecidableEq

/-- What the kernel knows of a process. -/
structure Task where
  life : Life
  asleep : Bool
  adj : SEM → Int

/-- In front of which call or store of `writer` the process stands. The loop is from `pEmpty` to
    `vFull`. -/
inductive WriterPc
  | aloneWr
  | waitPrevConnect
  | setvalFull
  | syncRead
  | syncWrite
  | openFile
  | pEmpty
  | checkNumProc
  | read
  | memcpy
  | storeNumSymb
  | vFull
  | closeFile
  | endWr
  | unlinkShm
  | deleteShm
  | deleteSem
  | returned
  deriving DecidableEq

/-- A process that runs `writer`. -/
structure Writer where
  task : Task
  pc : WriterPc
  file : List Byte
  -- how much of the file is read
  pos : Nat
  -- what `read` put into `tmp_buf`; the rest of it is zero
  tmpBuf : List Byte
  -- `num_symb`, −1 before the first `read`
  numSymb : Int

/-- In front of which call or store of `reader` the process stands. The loop is from `pFull` to
    `vEmpty`. -/
inductive ReaderPc
  | aloneRd
  | waitPrevConnect
  | setvalEmpty
  | syncWrite
  | syncRead
  | pFull
  | checkNumProc
  | load
  | write
  | vEmpty
  | endRd
  | unlinkShm
  | returned
  deriving DecidableEq

/-- A process that runs `reader`. -/
structure Reader where
  task : Task
  pc : ReaderPc
  -- `num_symb`, −1 before the first block
  numSymb : Int
  -- the bytes written to standard output
  out : List Byte

/-- The set, the page and the processes. What is in the page is its length, at the front, and the
    block behind it. -/
structure State where
  -- the values, or `none` for a set that is removed
  sems : Option (SEM → Nat)
  -- `*(size_t*) shmaddr`
  shmLen : Nat
  -- what is behind it
  shmData : List Byte
  writers : List Writer
  readers : List Reader

/-- What the scheduler, the kernel or a user does to one process. -/
inductive Act
  -- the next call or store; `k` is what `read` returns
  | run (k : Nat)
  -- the next call fails; `k` is how much `write` had written
  | err (k : Nat)
  -- the process is at its end, in one way or the other
  | exit
  -- it is killed, wherever it stands
  | kill

/-- One process takes a step; the others stay where they are. -/
inductive Event
  | writer (i : Nat) (a : Act)
  | reader (j : Nat) (a : Act)

/-- On to the error path; a process that was asleep is awake for it. -/
def Task.fail (t : Task) : Task := { t with life := .failing, asleep := false }

/-- The call waits; the process will be found in it again. -/
def Task.sleep (t : Task) : Task := { t with asleep := true }

/-- `SETVAL` by whoever forgets the adjustments of every process for that semaphore. -/
def Task.clear (t : Task) (s : SEM) : Task := { t with adj := clearAdj t.adj s }

/-- After the adjustments have been applied. -/
def Task.gone (t : Task) : Task := { t with life := .dead, asleep := false }

/-- A failed call of the writer. -/
def Writer.fail (w : Writer) : Writer := { w with task := w.task.fail }

/-- A failed call of the reader. -/
def Reader.fail (r : Reader) : Reader := { r with task := r.task.fail }

/-- `SETVAL`, seen from a writer. -/
def Writer.clear (w : Writer) (s : SEM) : Writer := { w with task := w.task.clear s }

/-- `SETVAL`, seen from a reader. -/
def Reader.clear (r : Reader) (s : SEM) : Reader := { r with task := r.task.clear s }

/-- What a call of `semop` comes to. -/
inductive Call
  | done (v : SEM → Nat) (t : Task)
  | sleep
  | error (e : SemErr)

namespace State

/-- `semop` for this process. On a set that is gone a process that has been waiting is told so with
    `EIDRM`, a new call finds a bad identifier. -/
def semop (s : State) (t : Task) (ops : List (Sembuf SEM)) : Call :=
  match s.sems with
  | none => .error (if t.asleep then .eidrm else .einval)
  | some v =>
    match Lib.semop ops v t.adj with
    | .done v' adj => .done v' { t with adj := adj, asleep := false }
    | .wait => .sleep
    | .fail e => .error e

/-- Only writer `i` changes. -/
def setWriter (s : State) (i : Nat) (w : Writer) : State :=
  { s with writers := s.writers.set i w }

/-- Only reader `j` changes. -/
def setReader (s : State) (j : Nat) (r : Reader) : State :=
  { s with readers := s.readers.set j r }

/-- `SETVAL`: the value, and the adjustments of all processes. -/
def setvalAll (s : State) (v : SEM → Nat) (sem : SEM) (n : Nat) : State :=
  { s with
    sems := some (setval v sem n)
    writers := s.writers.map (·.clear sem)
    readers := s.readers.map (·.clear sem) }

/-! ## The writer -/

/-- A `semop` of writer `i` that leads on to `next`. -/
def writerSemop (s : State) (i : Nat) (w : Writer) (ops : List (Sembuf SEM)) (next : WriterPc) :
    Option State :=
  match s.semop w.task ops with
  | .done v t => some ({ s with sems := some v }.setWriter i { w with task := t, pc := next })
  | .sleep => if w.task.asleep then none else some (s.setWriter i { w with task := w.task.sleep })
  | .error _ => some (s.setWriter i w.fail)

/-- The next call or store of `writer`, with `k` for what `read` returns. Each `semop` names the
    place after it; `vFull` looks at `num_symb` for the test of the loop. -/
def runWriter (s : State) (i : Nat) (w : Writer) (k : Nat) : Option State :=
  match w.pc with
  | .aloneWr => s.writerSemop i w Wr.alone .waitPrevConnect
  | .waitPrevConnect => s.writerSemop i w Sharmem.waitPrevConnect .setvalFull
  | .setvalFull =>
    -- a `semctl` that finds no set fails like any other call
    match s.sems with
    | none => some (s.setWriter i w.fail)
    | some v => some ((s.setvalAll v .full 0).setWriter i { w.clear .full with pc := .syncRead })
  | .syncRead => s.writerSemop i w Wr.syncRead .syncWrite
  | .syncWrite => s.writerSemop i w Wr.syncWrite .openFile
  | .openFile => some (s.setWriter i { w with pc := .pEmpty })
  | .pEmpty => s.writerSemop i w Wr.pEmpty .checkNumProc
  | .checkNumProc => s.writerSemop i w Sharmem.checkNumProc .read
  | .read =>
    -- a count of zero is the end of the file
    if k ≤ blockSize ∧ w.pos + k ≤ w.file.length ∧ (k = 0 → w.pos = w.file.length) then
      some (s.setWriter i { w with
        pc := .memcpy
        pos := w.pos + k
        tmpBuf := (w.file.drop w.pos).take k
        numSymb := k })
    else
      none
  | .memcpy =>
    some ({ s with shmData := w.tmpBuf ++ List.replicate (blockSize - w.tmpBuf.length) 0 }.setWriter
      i { w with pc := .storeNumSymb })
  | .storeNumSymb =>
    -- the store, and the `memset` of `tmp_buf`
    some ({ s with shmLen := w.numSymb.toNat }.setWriter i { w with pc := .vFull, tmpBuf := [] })
  | .vFull => s.writerSemop i w Wr.vFull (if w.numSymb > 0 then .pEmpty else .closeFile)
  | .closeFile => some (s.setWriter i { w with pc := .endWr })
  | .endWr => s.writerSemop i w Wr.endWr .unlinkShm
  | .unlinkShm => some (s.setWriter i { w with pc := .deleteShm })
  | .deleteShm => some (s.setWriter i { w with pc := .deleteSem })
  -- from here on every call on the set fails, the reader's last ones too
  | .deleteSem => some ({ s with sems := none }.setWriter i { w with pc := .returned })
  | .returned => none

/-- The stores and the return cannot fail. -/
def canFailWriter : WriterPc → Bool
  | .memcpy | .storeNumSymb | .returned => false
  | _ => true

/-- Writer `i` is gone: its adjustments are applied. -/
def exitWriter (s : State) (i : Nat) (w : Writer) : State :=
  { s with sems := s.sems.map fun v => undoExit v w.task.adj }.setWriter i
    { w with task := w.task.gone }

/-- What can happen to writer `i`: it goes on, its call fails on its own account, it exits after a
    failure or at its end, or it is killed. The last two are how it comes to be gone. -/
def stepWriter (s : State) (i : Nat) (w : Writer) : Act → Option State
  | .run k => if w.task.life = .running then s.runWriter i w k else none
  | .err _ =>
    if w.task.life = .running ∧ canFailWriter w.pc then some (s.setWriter i w.fail) else none
  | .exit =>
    if w.task.life = .failing ∨ (w.task.life = .running ∧ w.pc = .returned) then
      some (s.exitWriter i w)
    else
      none
  | .kill => if w.task.life ≠ .dead then some (s.exitWriter i w) else none

/-! ## The reader -/

/-- A `semop` of reader `j` that leads on to `next`. Unlike the writer, the reader forgives one
    error, `EINVAL` in its last operation: the writer may have removed the set by then. -/
def readerSemop (s : State) (j : Nat) (r : Reader) (ops : List (Sembuf SEM)) (next : ReaderPc) :
    Option State :=
  match s.semop r.task ops with
  | .done v t => some ({ s with sems := some v }.setReader j { r with task := t, pc := next })
  | .sleep => if r.task.asleep then none else some (s.setReader j { r with task := r.task.sleep })
  | .error e =>
    if r.pc = .endRd ∧ e = .einval then
      some (s.setReader j { r with pc := next })
    else
      some (s.setReader j r.fail)

/-- What `write` is given: `num_symb` bytes of the page. -/
def outBlock (s : State) (r : Reader) : List Byte := s.shmData.take r.numSymb.toNat

/-- The next call, load or store of `reader`. The length is taken from the page before the `write`,
    and `vEmpty` looks at it for the test of the loop. -/
def runReader (s : State) (j : Nat) (r : Reader) : Option State :=
  match r.pc with
  | .aloneRd => s.readerSemop j r Rd.alone .waitPrevConnect
  | .waitPrevConnect => s.readerSemop j r Sharmem.waitPrevConnect .setvalEmpty
  | .setvalEmpty =>
    match s.sems with
    | none => some (s.setReader j r.fail)
    | some v => some ((s.setvalAll v .empty 1).setReader j { r.clear .empty with pc := .syncWrite })
  | .syncWrite => s.readerSemop j r Rd.syncWrite .syncRead
  | .syncRead => s.readerSemop j r Rd.syncRead .pFull
  | .pFull => s.readerSemop j r Rd.pFull .checkNumProc
  | .checkNumProc => s.readerSemop j r Sharmem.checkNumProc .load
  | .load => some (s.setReader j { r with pc := .write, numSymb := s.shmLen })
  -- a `write` that takes all it is given; a partial one is an error and is in `failReader`
  | .write => some (s.setReader j { r with pc := .vEmpty, out := r.out ++ s.outBlock r })
  | .vEmpty => s.readerSemop j r Rd.vEmpty (if r.numSymb > 0 then .pFull else .endRd)
  | .endRd => s.readerSemop j r Rd.endRd .unlinkShm
  | .unlinkShm => some (s.setReader j { r with pc := .returned })
  | .returned => none

/-- The load and the return cannot fail. -/
def canFailReader : ReaderPc → Bool
  | .load | .returned => false
  | _ => true

/-- A call of the reader fails; a `write` may have written a part. -/
def failReader (s : State) (j : Nat) (r : Reader) (k : Nat) : State :=
  if r.pc = .write then
    s.setReader j { r.fail with out := r.out ++ (s.outBlock r).take k }
  else
    s.setReader j r.fail

/-- Reader `j` is gone: its adjustments are applied. -/
def exitReader (s : State) (j : Nat) (r : Reader) : State :=
  { s with sems := s.sems.map fun v => undoExit v r.task.adj }.setReader j
    { r with task := r.task.gone }

/-- The same for reader `j`, whose failing `write` may have put out a part of the block. -/
def stepReader (s : State) (j : Nat) (r : Reader) : Act → Option State
  | .run _ => if r.task.life = .running then s.runReader j r else none
  | .err k =>
    if r.task.life = .running ∧ canFailReader r.pc then some (s.failReader j r k) else none
  | .exit =>
    if r.task.life = .failing ∨ (r.task.life = .running ∧ r.pc = .returned) then
      some (s.exitReader j r)
    else
      none
  | .kill => if r.task.life ≠ .dead then some (s.exitReader j r) else none

/-! ## The system -/

/-- The system: any process at any time. `none` where there is no such process or it cannot do that.
    -/
def step (s : State) : Event → Option State
  | .writer i a => s.writers[i]?.bind fun w => s.stepWriter i w a
  | .reader j a => s.readers[j]?.bind fun r => s.stepReader j r a

end State

/-- A process that runs and owes nothing. -/
def Task.start : Task := ⟨.running, false, fun _ => 0⟩

/-- In front of its first operation, with the file in hand. -/
def Writer.start (file : List Byte) : Writer := ⟨.start, .aloneWr, file, 0, [], -1⟩

/-- In front of its first operation, with nothing put out. -/
def Reader.start : Reader := ⟨.start, .aloneRd, -1, []⟩

/-- A zeroed set, a page with anything in it, one writer for each file, and `n` readers. -/
def State.start (files : List (List Byte)) (n : Nat) (shmLen : Nat) (shmData : List Byte) :
    State where
  sems := some fun _ => 0
  shmLen := shmLen
  shmData := shmData
  writers := files.map Writer.start
  readers := List.replicate n Reader.start

end CompTech.Sharmem
