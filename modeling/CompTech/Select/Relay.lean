import CompTech.Lib.Ring
import CompTech.Lib.Run

/-!
# The parent's select loop

The parent of `transfer_data` moves bytes from the pipe of each child to the pipe of the next
through one ring buffer for each connection. The model takes the loop apart at its system
calls: a state stops in front of the `select`, or in front of one of the three blocks of the
inner loop for connection `i`, and a step runs that block with what the kernel answers.

`curRead` and `curWrite` are offsets from `buf`; they and the two counters are integers, since
the code moves them by whatever `write` returned. `none` is an answer the kernel cannot give,
or an access outside the buffer.

What a connection has read and handed on, and whether `close` was called on the descriptor it
writes, is recorded beside the code's own fields; no branch looks at it.

Three blocks make a round for connection `i`: reading, writing, and the one that ends a connection
whose input is used up. Each tests its own condition, so a round passes all three in order; only
`break` leaves the inner loop early. The last connection is in the table and never served: the inner
loop stops at `num_proc - 1`, the outer one at `num_proc`.

The sets of `select` are lists of descriptors, and any descriptor may be in one. In the code a set
has room for `FD_SETSIZE` of them, and `FD_SET` beyond it is undefined. The bound is left out, here
and in `TableOk`: the descriptors are those of pipes that the program makes itself before its loop,
and none is given out from the limit on open descriptors on, which is usually `FD_SETSIZE`'s own
value, so that a `pipe2` fails first. The results are then about more tables than the program comes
to, and none of them relies on such a descriptor. `Network.Handlers`, where the descriptors are
those of `accept` and come as others connect, checks the bound.
-/

namespace CompTech.Select

/-- A `char` of a buffer. -/
abbrev Byte := BitVec 8

/-- The `info_connect` of the code. `cur_read` and `cur_write` are kept as offsets from `buf`, and
    `end_buf` is the length of the buffer. -/
structure InfoConnect where
  fdRd : Int
  fdWr : Int
  buf : List Byte
  curRead : Int
  curWrite : Int
  full : Int
  empty : Int
  deriving DecidableEq

/-- A connection with its history. -/
structure Conn extends InfoConnect where
  -- all that `read` has put into the buffer
  received : List Byte
  -- all that `write` has taken from it
  sent : List Byte
  -- whether `close` was called on the descriptor it writes
  wrClosed : Bool
  deriving DecidableEq

/-- Where the parent stands. -/
inductive Pc
  -- before `select`, at the head of the outer loop
  | select
  -- before the first block for connection `i`
  | reading (i : Nat)
  -- before the second one
  | writing (i : Nat)
  -- before the last one
  | ending (i : Nat)
  -- behind the outer loop
  | finished
  -- in `ERROR_INFO`
  | exited
  deriving DecidableEq

/-- The parent: the table, `i_chld`, the two sets and the place in the loop. -/
structure Parent where
  conns : List Conn
  iChld : Nat
  fdsRd : List Int
  fdsWr : List Int
  pc : Pc
  deriving DecidableEq

/-- The answer of `write`: a count, `EAGAIN`, or another error. -/
inductive WriteAnswer
  | took (n : Nat)
  | again
  | error
  deriving DecidableEq

/-- What the kernel answers during a step; a step uses the answers to what it asks. -/
structure Kernel where
  -- `select` fails with an error other than `EINTR`
  selectFails : Bool
  -- what `select` leaves in the two sets; on `EINTR` it leaves them as they are
  readyRd : List Int
  readyWr : List Int
  -- `FD_ISSET` of descriptor −1, which lies outside every set
  isset : Bool
  -- `read`: `none` for −1, no bytes at the end of the input
  read : Option (List Byte)
  write : WriteAnswer
  -- the `close` of the last block succeeds
  closes : Bool

/-- `FD_ISSET`. -/
def Kernel.fdIsset (k : Kernel) (fd : Int) (set : List Int) : Bool :=
  if fd < 0 then k.isset else decide (fd ∈ set)

namespace InfoConnect

/-- What the code does with a positive `ret_read`. -/
def readUpdate (c : InfoConnect) (ret : Int) : InfoConnect :=
  let c := if c.curRead ≥ c.curWrite then { c with full := c.full + ret } else c
  -- the position wraps, and what is before `cur_write` is the room
  if c.curRead + ret = c.buf.length then
    { c with curRead := 0, empty := c.curWrite }
  else
    { c with curRead := c.curRead + ret, empty := c.empty - ret }

/-- What the code does with a `ret_write` other than zero, `EAGAIN` included. -/
def writeUpdate (c : InfoConnect) (ret : Int) : InfoConnect :=
  let c := if c.curWrite ≥ c.curRead then { c with empty := c.empty + ret } else c
  -- the same for the other side
  if c.curWrite + ret = c.buf.length then
    { c with curWrite := 0, full := c.curRead }
  else
    { c with curWrite := c.curWrite + ret, full := c.full - ret }

/-- The count `write` is given: `empty`, as a `size_t`. -/
def writeCount (c : InfoConnect) : Nat := (BitVec.ofInt 64 c.empty).toNat

/-- `n` cells from offset `off` on lie in the buffer. -/
def Inside (c : InfoConnect) (off : Int) (n : Nat) : Prop :=
  0 ≤ off ∧ off + n ≤ c.buf.length

instance (c : InfoConnect) (off : Int) (n : Nat) : Decidable (c.Inside off n) :=
  inferInstanceAs (Decidable (_ ∧ _))

/-- `calloc` and the initialisation of an entry of the table. -/
def start (fdRd fdWr : Int) (sizeBuf : Nat) : InfoConnect where
  fdRd := fdRd
  fdWr := fdWr
  buf := List.replicate sizeBuf 0
  curRead := 0
  curWrite := 0
  full := 0
  empty := sizeBuf

end InfoConnect

/-- `read` put `d` into the buffer. -/
def Conn.read (c : Conn) (d : List Byte) : Conn :=
  let stored : InfoConnect := { c.toInfoConnect with buf := Lib.patch c.buf c.curRead.toNat d }
  { c with toInfoConnect := stored.readUpdate d.length, received := c.received ++ d }

/-- `write` took `n` bytes. -/
def Conn.wrote (c : Conn) (n : Nat) : Conn :=
  { c with
    toInfoConnect := c.toInfoConnect.writeUpdate n
    sent := c.sent ++ (c.buf.drop c.curWrite.toNat).take n }

/-- `write` was refused with `EAGAIN`. The test for an error lets that through, and the update below
    it gets the −1. -/
def Conn.refused (c : Conn) : Conn :=
  { c with toInfoConnect := c.toInfoConnect.writeUpdate (-1) }

/-- `close (fd)`, as the connections see it. -/
def closeFd (fd : Int) (conns : List Conn) : List Conn :=
  conns.map fun c => if c.fdWr = fd then { c with wrClosed := true } else c

namespace Parent

/-- The connections the inner loop visits are those below this number. -/
def numServed (s : Parent) : Nat := s.conns.length - 1

/-- The tests of the inner and of the outer loop, before round `i`. -/
def round (s : Parent) (i : Nat) : Pc :=
  if i < s.numServed then .reading i
  else if s.iChld < s.conns.length then .select
  else .finished

/-- The connections the inner loop starts with, from `i_chld` on. -/
def visited (s : Parent) : List Conn := (s.conns.take s.numServed).drop s.iChld

/-- What the code puts into the first set. -/
def askedRd (s : Parent) : List Int :=
  (s.visited.filter fun c => c.fdRd ≠ -1 ∧ c.empty > 0).map (·.fdRd)

/-- What it puts into the second. -/
def askedWr (s : Parent) : List Int :=
  (s.visited.filter fun c => c.fdWr ≠ -1 ∧ c.full > 0).map (·.fdWr)

/-- The call of `select`. Only descriptors that were asked for come back. -/
def select (s : Parent) (k : Kernel) : Option Parent :=
  if k.selectFails then
    some { s with pc := .exited }
  -- `EINTR` is not an error here; then both sets stay as they are
  else if k.readyRd ⊆ s.askedRd ∧ k.readyWr ⊆ s.askedWr then
    some { s with fdsRd := k.readyRd, fdsWr := k.readyWr, pc := s.round s.iChld }
  else
    none

/-- `break`: the outer test comes next. -/
def leave (s : Parent) : Parent := { s with pc := s.round s.numServed }

/-- The condition of the first block. -/
def reads (s : Parent) (k : Kernel) (c : Conn) : Bool :=
  k.fdIsset c.fdRd s.fdsRd && decide (0 < c.empty)

/-- The condition of the second. -/
def writes (s : Parent) (k : Kernel) (c : Conn) : Bool :=
  k.fdIsset c.fdWr s.fdsWr && decide (0 < c.full)

/-- `read` into the room from `cur_read` on, and the update. 0 closes the descriptor and leaves the
    inner loop, so the rest of the connections waits for the next `select`. -/
def readBlock (s : Parent) (k : Kernel) (i : Nat) (c : Conn) : Option Parent :=
  if s.reads k c then
    -- `read` of descriptor −1 fails
    if c.fdRd < 0 then
      some { s with pc := .exited }
    else match k.read with
      | none => some { s with pc := .exited }
      | some [] =>
        let conns := (closeFd c.fdRd s.conns).modify i fun c => { c with fdRd := -1 }
        some { s with conns := conns }.leave
      | some d =>
        -- a kernel does not store more than it is asked for
        if d.length ≤ c.empty.toNat ∧ c.Inside c.curRead c.empty.toNat then
          some { s with conns := s.conns.modify i fun c => c.read d, pc := .writing i }
        else
          none
  else
    some { s with pc := .writing i }

/-- `write` from `cur_write` on, with `empty` as its count, and the update. -/
def writeBlock (s : Parent) (k : Kernel) (i : Nat) (c : Conn) : Option Parent :=
  if s.writes k c then
    if c.fdWr < 0 then
      some { s with pc := .exited }
    else match k.write with
      | .error => some { s with pc := .exited }
      | .again => some { s with conns := s.conns.modify i Conn.refused, pc := .ending i }
      | .took n =>
        -- a kernel does not take more than it is offered, nor what lies outside
        if n ≤ c.writeCount ∧ c.Inside c.curWrite n then
          if n = 0 then
            let conns := (closeFd c.fdWr s.conns).modify i fun c => { c with fdWr := -1 }
            some { s with conns := conns }.leave
          else
            some { s with conns := s.conns.modify i fun c => c.wrote n, pc := .ending i }
        else
          none
  else
    some { s with pc := .ending i }

/-- A connection that has read its end and has nothing left. It must be the first one that is still
    served. -/
def endBlock (s : Parent) (k : Kernel) (i : Nat) (c : Conn) : Option Parent :=
  if c.fdRd = -1 ∧ c.full = 0 then
    if i ≠ s.iChld then
      some { s with pc := .exited }
    else if k.closes then
      -- `close (fd_wr < 0)`: the argument is the answer of the comparison
      let fd : Int := if c.fdWr < 0 then 1 else 0
      let conns := (closeFd fd s.conns).modify i fun c => { c with fdWr := -1 }
      let s := { s with conns := conns, iChld := s.iChld + 1 }
      some { s with pc := s.round (i + 1) }
    else
      some { s with pc := .exited }
  else
    some { s with pc := s.round (i + 1) }

/-- One block, or the `select`. -/
def step (s : Parent) (k : Kernel) : Option Parent :=
  match s.pc with
  | .select => s.select k
  | .reading i => s.conns[i]?.bind (s.readBlock k i)
  | .writing i => s.conns[i]?.bind (s.writeBlock k i)
  | .ending i => s.conns[i]?.bind (s.endBlock k i)
  | .finished | .exited => none

end Parent

/-- One row of the table the loop starts from: the two descriptors and the buffer size. -/
structure Row where
  -- the pipe the connection reads
  fdRd : Int
  -- the pipe it writes
  fdWr : Int
  -- the bytes of its buffer
  sizeBuf : Nat

/-- A fresh connection: nothing read, nothing sent. -/
def Conn.start (r : Row) : Conn where
  toInfoConnect := InfoConnect.start r.fdRd r.fdWr r.sizeBuf
  received := []
  sent := []
  wrClosed := false

/-- The parent before its loop. -/
def Parent.start (table : List Row) : Parent where
  conns := table.map Conn.start
  iChld := 0
  fdsRd := []
  fdsWr := []
  pc := if 0 < table.length then .select else .finished

end CompTech.Select
