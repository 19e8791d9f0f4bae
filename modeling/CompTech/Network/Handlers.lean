import CompTech.Lib.Channel
import CompTech.Lib.Run
import CompTech.Network.Sockets

/-!
# The handlers of `get_result`, and the workers

`get_result` starts one `work_handler` for each task, joins them in the order of the tasks and adds
up what they return. A handler sends its task, waits in `select` and receives one `double`; at the
other end a worker runs `do_computation`. A step of the machine is the next step of one of them,
or the failure of a connection; it carries how the call it makes is answered, and calls may fail
at any time.

Two answers end the server. A `send` without `MSG_NOSIGNAL` on a connection that is gone raises
`SIGPIPE`; and `pthread_cancel` is called for every thread, those included that are joined, for
which nothing is promised. So is nothing for an `FD_SET` beyond `FD_SETSIZE`.

`struct worker_info` and `double` are delivered whole; a task on its way carries its number in the
table, which no branch looks at. `V` is the type of the results.

The machine has four kinds of parties, and one of them moves in each step: `get_result` itself
(`getResult`), handler `i` (`workHandler`, or its end by cancellation), the worker at a descriptor
(`doComputation`), and the network, which may lose a connection. A channel of `Lib.Channel` keeps
what was sent and what was received, so that "received once" is a statement about a state.

`Collects` at the end is what the claim about this exchange asks of every state of a run.
-/

namespace CompTech.Network

variable {V : Type}

/-! ## The worker -/

/-- What a worker sends back. -/
inductive Reply (V : Type)
  | double (v : V)
  -- the byte behind it, which the server does not read
  | ping
  deriving DecidableEq

/-- Where `do_computation` is; `ended` when the worker has closed its socket. -/
inductive WorkerPc (V : Type)
  -- before its `recv`
  | receiving
  -- in `Integrate`, with its task
  | computing (initInfo : WorkerInfo)
  -- before the `send` of the result
  | replying (res : V)
  -- before the `send` of the byte behind it
  | pinging
  | ended
  deriving DecidableEq

/-- A connection, and the worker that made it. -/
structure Link (V : Type) where
  -- from the server to the worker: the number of a task, and the task
  down : Lib.Channel (Nat × WorkerInfo)
  -- from the worker to the server
  up : Lib.Channel (Reply V)
  -- the connection has failed
  broken : Bool
  worker : WorkerPc V

/-- An accepted connection, nothing sent. -/
def Link.new : Link V := ⟨.empty, .empty, false, .receiving⟩

/-- The next step of the worker; `none` while its `recv` waits. -/
def doComputation (integrate : WorkerInfo → V) (l : Link V) (ok : Bool) : Option (Link V) :=
  match l.worker, ok with
  | .ended, _ => none
  -- any failure leads to the `close` at the end
  | _, false => some { l with worker := .ended }
  | .receiving, true =>
    l.down.pop.map fun p => { l with down := p.2, worker := .computing p.1.2 }
  | .computing initInfo, true => some { l with worker := .replying (integrate initInfo) }
  | .replying res, true => some { l with up := l.up.push (.double res), worker := .pinging }
  | .pinging, true => some { l with up := l.up.push .ping, worker := .ended }

/-- The worker has closed its end. -/
def WorkerPc.gone : WorkerPc V → Bool
  | .ended => true
  | _ => false

/-- The connection is gone, at this end or at the other. -/
def Link.gone (l : Link V) : Bool := l.broken || l.worker.gone

/-- `select` returns: there is something to receive, or the end of it. -/
def Link.ready (l : Link V) : Bool := l.gone || l.up.pop.isSome

/-! ## The server -/

/-- The calls of `work_handler`, in their order. -/
inductive HandlerPc
  | malloc
  | send
  | select
  | recv
  deriving DecidableEq, Repr

/-- A thread of `get_result`. -/
inductive Handler (V : Type)
  -- with whether `pthread_cancel` was called for it
  | running (pc : HandlerPc) (cancelled : Bool)
  -- returned, with the value if there is one
  | ended (res : Option V)
  -- and joined
  | joined (res : Option V)
  | cancelled
  deriving DecidableEq

/-- Where `get_result` stands. -/
inductive GetResultPc
  -- before `pthread_create` number `i`
  | creating (i : Nat)
  -- before `pthread_join` number `j`
  | joining (j : Nat)
  -- in the error exit, before `pthread_cancel` number `j`
  | cancelling (j : Nat)
  | returned
  -- ended by a signal, or without a defined behaviour
  | dead
  deriving DecidableEq, Repr

/-- The server, its threads and the connections. -/
structure GetResultState (V : Type) where
  pc : GetResultPc
  error : Error
  -- those that were created, in their order
  threads : List (Handler V)
  -- the sum so far
  result : V
  -- `*res`, once it is written
  res : Option V
  links : Fd → Link V

/-- What the calls of `get_result` answer. -/
structure GetResultCalls where
  calloc : Bool
  create : Nat → Bool
  join : Nat → Bool

/-- How a call of a handler is answered. -/
inductive Answer
  | ok
  | fails
  | sigpipe
  deriving DecidableEq, Repr

/-- The number of descriptors a set has room for. -/
def FD_SETSIZE : Int := 1024

namespace GetResultState

/-- Only thread `i` changes. -/
def setThread (s : GetResultState V) (i : Nat) (h : Handler V) : GetResultState V :=
  { s with threads := s.threads.set i h }

/-- Only the connection at `fd` changes. -/
def setLink (s : GetResultState V) (fd : Fd) (l : Link V) : GetResultState V :=
  { s with links := fun fd' => if fd' = fd then l else s.links fd' }

end GetResultState

/-- The next step of handler `i` with the record `t`, in front of the call `pc`. A `send` may
    succeed although the worker is gone; only what is broken refuses it. -/
def workHandler (t : HandlerInfo) (s : GetResultState V) (i : Nat) (pc : HandlerPc)
    (cancelled : Bool) (a : Answer) : Option (GetResultState V) :=
  let l := s.links t.socket
  match pc, a with
  | .malloc, .ok => some (s.setThread i (.running .send cancelled))
  | .malloc, .fails => some (s.setThread i (.ended none))
  | .malloc, .sigpipe => none
  | .send, .ok =>
    if l.broken then none
    else
      let sent := { l with down := l.down.push (i, t.wInfo) }
      some ((s.setLink t.socket sent).setThread i (.running .select cancelled))
  | .send, .fails => some (s.setThread i (.ended none))
  -- `EPIPE` without `MSG_NOSIGNAL`
  | .send, .sigpipe => if l.gone then some { s with pc := .dead } else none
  | .select, a =>
    -- `FD_SET` comes first
    if t.socket.toInt < 0 ∨ FD_SETSIZE ≤ t.socket.toInt then some { s with pc := .dead }
    else match a with
      | .ok => if l.ready then some (s.setThread i (.running .recv cancelled)) else none
      | .fails => some (s.setThread i (.ended none))
      | .sigpipe => none
  | .recv, .ok =>
    match l.up.pop with
    | some (.double v, up) =>
      some ((s.setLink t.socket { l with up := up }).setThread i (.ended (some v)))
    | _ => none
  | .recv, .fails => some (s.setThread i (.ended none))
  | .recv, .sigpipe => none

/-- A cancelled handler ends at its next call; `malloc` is no such point. -/
def cancelHandler (s : GetResultState V) (i : Nat) : Option (GetResultState V) :=
  match s.threads[i]? with
  | some (.running .malloc true) => none
  | some (.running _ true) => some (s.setThread i .cancelled)
  | _ => none

/-- The next step of `get_result`; `none` while `pthread_join` waits. `harmless` is the answer of
    `pthread_cancel` for a thread that is joined. -/
def getResult [Add V] (w : GetResultCalls) (tasks : TasksForWorkers) (s : GetResultState V)
    (harmless : Bool) : Option (GetResultState V) :=
  match s.pc with
  | .creating i =>
    if (i : Int) < tasks.size.toInt then
      if w.create i then
        some { s with
          pc := .creating (i + 1), threads := s.threads ++ [.running .malloc false] }
      else some { s with pc := .cancelling 0, error := .eThread }
    else some { s with pc := .joining 0 }
  | .joining j =>
    if (j : Int) < tasks.size.toInt then
      if w.join j then
        match s.threads[j]? with
        | some (.ended (some part)) =>
          some { s.setThread j (.joined (some part)) with
            pc := .joining (j + 1), result := s.result + part }
        -- `!part`: the threads behind `j` are left running
        | some (.ended none) =>
          some { s.setThread j (.joined none) with pc := .cancelling 0, error := .eThread }
        | _ => none
      else some { s with pc := .cancelling 0, error := .eThread }
    else some { s with pc := .returned, res := some s.result }
  | .cancelling j =>
    -- as many threads as were created
    match s.threads[j]? with
    | none => some { s with pc := .returned }
    | some (.joined _) => some { s with pc := if harmless then .cancelling (j + 1) else .dead }
    | some (.running pc _) =>
      some { s.setThread j (.running pc true) with pc := .cancelling (j + 1) }
    | some _ => some { s with pc := .cancelling (j + 1) }
  | .returned | .dead => none

/-- `get_result` behind its `calloc`. -/
def getResultStart [Zero V] (w : GetResultCalls) : GetResultState V where
  pc := if w.calloc then .creating 0 else .returned
  error := if w.calloc then .success else .eMem
  threads := []
  result := 0
  res := none
  links := fun _ => .new

/-! ## The machine -/

/-- Who takes the next step, and how the call is answered. -/
inductive GetResultAct
  -- `get_result` itself
  | main (harmless : Bool)
  -- handler `i`, with the answer of its call
  | handler (i : Nat) (a : Answer)
  -- handler `i` ends at a cancellation point
  | cancelled (i : Nat)
  -- the worker at `fd`
  | worker (fd : Fd) (ok : Bool)
  -- the connection fails
  | lose (fd : Fd)
  deriving DecidableEq, Repr

/-- The step of one party. Nothing moves on the server once it is dead; the workers may. -/
def getResultStep [Add V] (integrate : WorkerInfo → V) (w : GetResultCalls)
    (tasks : TasksForWorkers) (s : GetResultState V) : GetResultAct → Option (GetResultState V)
  | .main harmless => getResult w tasks s harmless
  | .handler i a =>
    if s.pc = .dead then none
    else match s.threads[i]?, tasks.task[i]? with
      | some (.running pc cancelled), some t => workHandler t s i pc cancelled a
      | _, _ => none
  | .cancelled i => if s.pc = .dead then none else cancelHandler s i
  | .worker fd ok =>
    if fd ∈ tasks.task.map (·.socket) then
      (doComputation integrate (s.links fd) ok).map (s.setLink fd)
    else none
  | .lose fd =>
    if fd ∈ tasks.task.map (·.socket) ∧ (s.links fd).broken = false then
      some (s.setLink fd { s.links fd with broken := true })
    else none

/-! ## What should hold -/

/-- The steps that do not end the server. -/
def GetResultAct.Harmless : GetResultAct → Prop
  | .main harmless => harmless = true
  | .handler _ a => a ≠ .sigpipe
  | _ => True

instance (e : GetResultAct) : Decidable e.Harmless :=
  match e with
  | .main harmless => inferInstanceAs (Decidable (harmless = true))
  | .handler _ a => inferInstanceAs (Decidable (a ≠ .sigpipe))
  | .cancelled _ | .worker _ _ | .lose _ => inferInstanceAs (Decidable True)

/-- A run of `get_result`, its handlers and the workers, in which no step ends the server. -/
def GetResultRun [Add V] (integrate : WorkerInfo → V) (w : GetResultCalls)
    (tasks : TasksForWorkers) :
    GetResultState V → List GetResultAct → GetResultState V → Prop :=
  Lib.Run (getResultStep integrate w tasks) fun _ e => e.Harmless

/-- A call is answered with a failure only if the connection is gone, and no connection fails. -/
def GetResultState.Regular (s : GetResultState V) (tasks : TasksForWorkers) :
    GetResultAct → Prop
  | .main _ | .cancelled _ => True
  | .handler i a => a = .ok ∨ ∃ t, tasks.task[i]? = some t ∧ (s.links t.socket).gone = true
  | .worker _ ok => ok = true
  | .lose _ => False

/-- A handler that could not send its task or not receive a whole `double`. -/
def Handler.Failed (h : Handler V) : Prop := h = .ended none ∨ h = .joined none

/-- The worker has sent its result. -/
def Link.Replied (l : Link V) : Prop := ∃ v, .double v ∈ l.up.sent

/-- The parts in the order of the tasks, added up from zero. -/
def totalOf [Zero V] [Add V] (integrate : WorkerInfo → V) (task : List HandlerInfo) : V :=
  (task.map fun t => integrate t.wInfo).foldl (· + ·) 0

/-- What is asked of every state. -/
structure Collects [Zero V] [Add V] (integrate : WorkerInfo → V) (w : GetResultCalls)
    (tasks : TasksForWorkers) (s : GetResultState V) : Prop where
  /-- nothing has killed the server -/
  alive : s.pc ≠ .dead
  /-- no worker has received two tasks -/
  oneTask : ∀ t ∈ tasks.task, (s.links t.socket).down.received.length ≤ 1
  /-- the same task is not received at two ends -/
  apart : ∀ t ∈ tasks.task, ∀ u ∈ tasks.task, ∀ x ∈ (s.links t.socket).down.received,
    ∀ y ∈ (s.links u.socket).down.received, x.1 = y.1 → t.socket = u.socket
  /-- every worker has replied, and every reply has arrived -/
  success : s.pc = .returned → (∀ t ∈ tasks.task, (s.links t.socket).Replied) →
    (∀ h ∈ s.threads, ¬h.Failed) →
      s.error = .success ∧ s.res = some (totalOf integrate tasks.task)
  /-- one failed handler makes the whole fail, and nothing is stored -/
  failure : (∃ h ∈ s.threads, h.Failed) →
    s.res = none ∧ (s.pc = .returned → s.error = .eThread)
  /-- until it has returned somebody can take a step, without any further failure -/
  goesOn : s.pc ≠ .returned → ∃ e t, e.Harmless ∧ s.Regular tasks e ∧
    getResultStep integrate w tasks s e = some t

end CompTech.Network
