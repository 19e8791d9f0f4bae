import CompTech.Fifo.Rendezvous

/-!
# A file through a secret FIFO

What the processes of `Rendezvous` do when they have met. A `FIFO_read` has made the secret FIFO of
its pid before it comes to the general one, and waits in `select` until there is something in it;
then `data_writing_fifo` copies it to the standard output until the last writer has left. A
`FIFO_write` opens the secret FIFO of the pid it has got and copies its file into it.

The FIFOs are kept by name, and so is what the reader of that pid has done (`Drain`); it opens its
secret FIFO and calls `open` for the general one in one step, since nobody knows the name before
it is posted. How the kernel cuts a file into chunks, how much of a `write` goes into the FIFO
before it is full, and where a process fails or is killed, is up to the events.

The two programs are kept with the general FIFO of `Rendezvous` as a part of the state: a step that
concerns it (an `open`, a post, a `get_pid_fifo`, an exit) is a step of that machine, and
`readerStep` and `writerStep` add what it means for the secret FIFO. All ends that a process has
open are closed by its exit, whatever has led to it, so a failure of any call and a signal are one
event (`dies`).

A secret FIFO counts its openings for writing for the sake of `select`: a FIFO that no writer has
opened yet is not readable, while one whose writers have left is, and the two look the same
otherwise.
-/

namespace CompTech.Fifo.Feeding

open Lib

/-- A byte of the file. -/
abbrev Byte := UInt8

/-- The size of the buffer between `read` and `write`, in both programs. -/
def BUFF_SIZE : Nat := 4096

/-! ## The secret FIFOs -/

/-- A secret FIFO. -/
structure Line where
  buf : List Byte
  -- how many processes have it open for reading, and how many for writing
  rdEnds : Nat
  wrEnds : Nat
  -- how often it has been opened for writing
  wrOpens : Nat
  deriving DecidableEq, Repr

/-- What is in it is lost when nobody has it open any more. -/
def Line.settle (l : Line) : Line :=
  if l.rdEnds = 0 ∧ l.wrEnds = 0 then { l with buf := [] } else l

/-- The `open` of `FIFO_read`, with `O_NONBLOCK`: it does not wait for a writer. -/
def Line.openRead (l : Line) : Line := { l with rdEnds := l.rdEnds + 1 }
/-- One reading end less. -/
def Line.closeRead (l : Line) : Line := { l with rdEnds := l.rdEnds - 1 }.settle

/-- The `open` of `FIFO_write`, when there is a reader. -/
def Line.openWrite (l : Line) : Line :=
  { l with wrEnds := l.wrEnds + 1, wrOpens := l.wrOpens + 1 }

/-- One writing end less. -/
def Line.closeWrite (l : Line) : Line := { l with wrEnds := l.wrEnds - 1 }.settle

/-! ## The processes -/

/-- Where a `FIFO_read` stands with respect to its secret FIFO. -/
inductive DrainPc
  -- there is no reader of that pid
  | absent
  -- up to `is_can_read_fifo`
  | waiting
  -- before `read`
  | reading
  -- before the `write` of `buff`
  | writing (buff : List Byte)
  -- before the two `close`
  | closing
  | exited (ok : Bool)
  deriving DecidableEq, Repr

/-- What the `FIFO_read` of a pid has done; the program that prints is `data_writing_fifo`. -/
structure Drain where
  pc : DrainPc
  -- how often the secret FIFO had been opened for writing when it was opened for reading
  seen : Nat
  -- what it has printed
  out : List Byte
  deriving DecidableEq, Repr

/-- There is a process of that pid, and it has its secret FIFO open. -/
def Drain.alive (d : Drain) : Bool :=
  match d.pc with
  | .absent | .exited _ => false
  | .waiting | .reading | .writing _ | .closing => true

/-- Where a `FIFO_write` stands after it has come. -/
inductive FeedPc
  -- up to `get_pid_fifo`, and before the `open` of the secret FIFO
  | meeting
  -- before the `open` of the file
  | openingFile
  -- before `read`
  | reading
  -- in `write`, with what is not yet in the FIFO
  | writing (pending : List Byte)
  -- before the three `close`
  | closing
  | exited (ok : Bool)
  deriving DecidableEq, Repr

/-- What a `FIFO_write` does with its file. -/
structure Feed where
  pc : FeedPc
  file : List Byte
  -- what has not been read of it
  rest : List Byte
  -- what has been put into the secret FIFO
  sent : List Byte
  deriving DecidableEq, Repr

/-- The secret FIFO is open. -/
def Feed.hasSecr (f : Feed) : Bool :=
  match f.pc with
  | .meeting | .exited _ => false
  | .openingFile | .reading | .writing _ | .closing => true

/-- The general FIFO, what the process of each pid has done as a reader, what each writer has done,
    and all secret FIFOs. -/
structure State where
  general : Fifo.State
  drain : Pid → Drain
  -- in the order of the writers
  feeds : List Feed
  line : Pid → Line

/-- No process, and all secret FIFOs empty. -/
def start : State := ⟨Fifo.start, fun _ => ⟨.absent, 0, []⟩, [], fun _ => ⟨[], 0, 0, 0⟩⟩

/-- The calls of a `FIFO_read` with the answers that the kernel is free to give. -/
inductive ReaderAct
  | opened
  | posts
  -- `is_can_read_fifo` answers `true`
  | select
  -- `read` answers `count`
  | read (count : Nat)
  -- `write` writes `count` bytes
  | print (count : Nat)
  | close
  -- a call fails, the time is out, or a signal comes
  | dies
  deriving DecidableEq, Repr

/-- The calls of a `FIFO_write` with the answers that the kernel is free to give. -/
inductive WriterAct
  | opened
  | gets (junk : Pid)
  | openSecr
  | openFile (ok : Bool)
  | read (count : Nat)
  -- the `write` puts `count` bytes into the FIFO
  | put (count : Nat)
  | close
  | dies
  deriving DecidableEq, Repr

/-- Somebody comes, or somebody who is there makes a call. -/
inductive Event
  | readerComes (pid : Pid)
  | reader (k : Nat) (act : ReaderAct)
  | writerComes (file : List Byte)
  | writer (j : Nat) (act : WriterAct)
  deriving DecidableEq, Repr

/-! ## FIFO_read -/

/-- The reader of `pid` and its secret FIFO change, and nothing else. -/
def State.setDrain (s : State) (pid : Pid) (d : Drain) (l : Line) : State :=
  { s with drain := Function.update s.drain pid d, line := Function.update s.line pid l }

/-- The process of pid `pid` exits, and with it its ends of the two FIFOs. -/
def State.readerExit (s : State) (k : Nat) (pid : Pid) (d : Drain) (ok : Bool) : Option State :=
  (Fifo.step s.general (.readerLeaves k)).map fun general =>
    { s.setDrain pid { d with pc := .exited ok } (s.line pid).closeRead with general := general }

/-- `select` reports a byte, and that a writer has been there and none is left. -/
def canRead (l : Line) (d : Drain) : Bool :=
  decide (l.buf ≠ [] ∨ l.wrEnds = 0 ∧ d.seen ≠ l.wrOpens)

/-- What a `read` of `BUFF_SIZE` bytes may answer when `avail` are there. -/
def ReadCount (avail count : Nat) : Prop := 1 ≤ count ∧ count ≤ min BUFF_SIZE avail

instance (avail count : Nat) : Decidable (ReadCount avail count) :=
  inferInstanceAs (Decidable (_ ∧ _))

/-- A call of reader `k`. The pid says which secret FIFO is its own; the general FIFO is its
    business until it has posted, and again when it exits. -/
def readerStep (s : State) (k : Nat) (r : Reader) (act : ReaderAct) : Option State :=
  let pid := r.secrPid
  let d := s.drain pid
  let l := s.line pid
  match act with
  | .opened =>
    (Fifo.step s.general (.readerOpened k)).map fun general => { s with general := general }
  | .posts =>
    (Fifo.step s.general (.readerPosts k)).map fun general =>
      -- `SIGPIPE`
      if s.general.rdEnds = 0 then
        { s.setDrain pid { d with pc := .exited false } l.closeRead with general := general }
      else { s with general := general }
  | .select =>
    if r.pc = .posted ∧ d.pc = .waiting ∧ canRead l d then
      some (s.setDrain pid { d with pc := .reading } l)
    else none
  | .read count =>
    match d.pc with
    | .reading =>
      -- an empty FIFO: the end of the file without a writer, and a `read` that waits with one
      if l.buf = [] then
        if l.wrEnds = 0 ∧ count = 0 then some (s.setDrain pid { d with pc := .closing } l) else none
      else if ReadCount l.buf.length count then
        some (s.setDrain pid { d with pc := .writing (l.buf.take count) }
          { l with buf := l.buf.drop count })
      else none
    | _ => none
  | .print count =>
    match d.pc with
    | .writing buff =>
      let d := { d with out := d.out ++ buff.take count }
      if count = buff.length then some (s.setDrain pid { d with pc := .reading } l)
      -- a short `write` counts as a failure
      else if count < buff.length then s.readerExit k pid d false
      else none
    | _ => none
  | .close => if d.pc = .closing then s.readerExit k pid d true else none
  | .dies => if d.alive then s.readerExit k pid d false else none

/-! ## FIFO_write -/

/-- Only writer `j` changes. -/
def State.setFeed (s : State) (j : Nat) (f : Feed) : State := { s with feeds := s.feeds.set j f }

/-- Writer `j` exits, and with it its ends of the two FIFOs; the secret one it may not have opened
    yet. -/
def State.writerExit (s : State) (j : Nat) (w : Writer) (f : Feed) (ok : Bool) : Option State :=
  (Fifo.step s.general (.writerLeaves j)).map fun general =>
    let s := { s.setFeed j { f with pc := .exited ok } with general := general }
    match w.secrPid with
    | some pid =>
      if f.hasSecr then { s with line := Function.update s.line pid (s.line pid).closeWrite } else s
    | none => s

/-- A call of writer `j`, with `cap` the room of a FIFO. A writer without a pid can only come to
    one; after that the pid says which secret FIFO it feeds. -/
def writerStep (cap : Nat) (s : State) (j : Nat) (w : Writer) (f : Feed) (act : WriterAct) :
    Option State :=
  match act, w.secrPid with
  | .opened, _ =>
    (Fifo.step s.general (.writerOpened j)).map fun general => { s with general := general }
  | .gets junk, _ =>
    (Fifo.step s.general (.writerGets j junk)).map fun general => { s with general := general }
  | .openSecr, some pid =>
    if w.pc = .feeding ∧ f.pc = .meeting then
      -- `O_NONBLOCK`: without a reader the call fails
      if (s.line pid).rdEnds = 0 then s.writerExit j w f false
      else some { s.setFeed j { f with pc := .openingFile } with
        line := Function.update s.line pid (s.line pid).openWrite }
    else none
  | .openFile ok, some _ =>
    if f.pc = .openingFile then
      if ok then some (s.setFeed j { f with pc := .reading }) else s.writerExit j w f false
    else none
  | .read count, some _ =>
    match f.pc with
    | .reading =>
      if f.rest = [] then
        if count = 0 then some (s.setFeed j { f with pc := .closing }) else none
      else if ReadCount f.rest.length count then
        some (s.setFeed j { f with pc := .writing (f.rest.take count), rest := f.rest.drop count })
      else none
    | _ => none
  | .put count, some pid =>
    match f.pc with
    | .writing pending =>
      -- `SIGPIPE`
      if (s.line pid).rdEnds = 0 then s.writerExit j w f false
      else if 1 ≤ count ∧ count ≤ pending.length ∧ (s.line pid).buf.length + count ≤ cap then
        let pc := if count = pending.length then .reading else .writing (pending.drop count)
        some { s.setFeed j { f with pc := pc, sent := f.sent ++ pending.take count } with
          line := Function.update s.line pid
            { s.line pid with buf := (s.line pid).buf ++ pending.take count } }
      else none
    | _ => none
  | .close, some _ => if f.pc = .closing then s.writerExit j w f true else none
  | .dies, _ => if (∀ ok, f.pc ≠ .exited ok) then s.writerExit j w f false else none
  | .openSecr, none | .openFile _, none | .read _, none | .put _, none | .close, none => none

/-- The system. A reader makes its secret FIFO and opens it as it comes, a writer brings its file.
    -/
def step (cap : Nat) (s : State) : Event → Option State
  | .readerComes pid =>
    (Fifo.step s.general (.readerComes pid)).map fun general =>
      { s.setDrain pid ⟨.waiting, (s.line pid).wrOpens, []⟩ (s.line pid).openRead with
        general := general }
  | .reader k act => (s.general.readers[k]?).bind fun r => readerStep s k r act
  | .writerComes file =>
    (Fifo.step s.general .writerComes).map fun general =>
      { s with general := general, feeds := s.feeds ++ [⟨.meeting, file, file, []⟩] }
  | .writer j act =>
    (s.general.writers[j]?).bind fun w => (s.feeds[j]?).bind fun f => writerStep cap s j w f act

end CompTech.Fifo.Feeding
