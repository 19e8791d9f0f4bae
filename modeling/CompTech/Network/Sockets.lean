import CompTech.Network.Slices

/-!
# Who closes the sockets of the server

`run_server` behind `divide_work`: one thread makes the connections (`get_tcp_connections`), its
caller `get_tcps` prints the error and drops it, `get_result` lets one handler per task send the
task, and at the end every `task[i].socket` is closed. What the kernel answers is fixed in
`Outcomes`; the run leaves a `Log` of the descriptors it obtained and of those it used.

After a failure `get_tcp_connections` has already closed what it accepted, and the tasks without
a connection still hold the zero of `calloc`: the rest of `run_server` uses both. So the sockets
are in order exactly if the connection phase succeeds (`socketsOwned_iff`).

The threads `run_server` starts itself are taken to start and to be joined: where they are not it
returns beside a running getter.
-/

namespace CompTech.Network

/-- A descriptor; a negative one is a failure. -/
abbrev Fd := BitVec 32

/-- The answers to the calls of one run. -/
structure Outcomes where
  -- `socket ()`, `-1` for a failure
  socket : Fd
  -- `setsockopt` and `bind`
  setup : Bool
  -- what the uninitialised `serv_sock` holds
  junk : Fd
  listen : Bool
  -- the `k`-th `accept ()`
  accept : Nat → Fd
  -- the array of `get_result`
  calloc : Bool
  -- how many handler threads `get_result` can create
  created : Nat
  -- the handlers that come to their `send`, in the order they do
  handlers : List Nat

/-- The descriptors of a run, by what was done with them. -/
structure Log where
  -- from `socket ()`
  sockets : List Fd
  -- from `accept ()`
  accepted : List Fd
  -- in the order of the `close` calls
  closed : List Fd
  -- the task and the descriptor of each `send`
  sent : List (Nat × Fd)
  deriving DecidableEq, Repr

/-! ## The functions -/

/-- The error, what `serv_sock` holds afterwards, and the descriptor obtained. -/
def createServerSocket (o : Outcomes) : Error × Fd × List Fd :=
  if o.socket = -1 then (.eSock, o.junk, [])
  else if o.setup = false then (.eSock, o.junk, [o.socket])
  else (.success, o.socket, [o.socket])

/-- The accepting loop from round `n` on, with the rounds it has left. -/
def acceptLoop (accept : Nat → Fd) :
    Nat → Nat → List HandlerInfo → Option (Error × Nat × List HandlerInfo)
  | 0, n, task => some (.success, n, task)
  | rounds + 1, n, task =>
    let newSock := accept n
    if newSock.toInt < 0 then some (.eConn, n, task)
    else (Lib.storeAt task n fun t => { t with socket := newSock }).bind
      (acceptLoop accept rounds (n + 1))

/-- `get_tcp_connections`. Behind a failed `accept` all that was accepted is closed, as `dropped`;
    `serv_sock` is closed in any case. -/
def getTcpConnections (o : Outcomes) (tasks : TasksForWorkers) :
    Option (Error × TasksForWorkers × Log) :=
  let (error, servSock, sockets) := createServerSocket o
  if error ≠ .success then some (error, tasks, ⟨sockets, [], [servSock], []⟩)
  else if o.listen = false then some (.eSock, tasks, ⟨sockets, [], [servSock], []⟩)
  else do
    let (error, n, task) ← acceptLoop o.accept tasks.size.toInt.toNat 0 tasks.task
    let dropped := if error = .success then [] else (task.take n).map (·.socket)
    return (error, { tasks with task := task },
      ⟨sockets, (List.range n).map o.accept, dropped ++ [servSock], []⟩)

/-- What the handlers of `get_result` send. -/
def handlerSends (o : Outcomes) (tasks : TasksForWorkers) : List (Nat × Fd) :=
  if o.calloc = false then []
  else o.handlers.filterMap fun i =>
    if i < o.created ∧ (i : Int) < tasks.size.toInt then
      (tasks.task[i]?).map fun t => (i, t.socket)
    else none

/-- The error of the connection phase, which nothing asks for, and the log of the run. -/
def runServer (o : Outcomes) (tasks : TasksForWorkers) : Option (Error × Log) := do
  let (error, tasks, log) ← getTcpConnections o tasks
  -- the loop at the end of `run_server` goes over all tasks
  let closed := (tasks.task.take tasks.size.toInt.toNat).map (·.socket)
  return (error, { log with closed := log.closed ++ closed, sent := handlerSends o tasks })

/-! ## What should hold -/

/-- Every accepted socket is closed exactly once, only descriptors that were obtained are used,
    and no task is sent after a failed connection phase. -/
structure SocketsOwned (error : Error) (log : Log) : Prop where
  /-- no accepted socket is left open or closed twice -/
  once : ∀ fd ∈ log.accepted, log.closed.count fd = 1
  /-- nothing else is closed -/
  closed : ∀ fd ∈ log.closed, fd ∈ log.sockets ++ log.accepted
  /-- nor written to -/
  sent : ∀ s ∈ log.sent, s.2 ∈ log.sockets ++ log.accepted
  noTask : error ≠ .success → log.sent = []

/-- The tasks of `divide_work`: one record for each, no socket yet. -/
structure TasksForWorkers.Ready (tasks : TasksForWorkers) : Prop where
  count : tasks.size.toInt = tasks.task.length
  some : 0 < tasks.task.length
  unconnected : ∀ t ∈ tasks.task, t.socket = 0

/-- The kernel gives a descriptor that is not open, and 0 is open from the start. -/
structure Outcomes.Kernel (o : Outcomes) : Prop where
  socket : o.socket ≠ 0
  accept : ∀ k, o.accept k ≠ 0
  apart : ∀ k, 0 ≤ (o.accept k).toInt → o.accept k ≠ o.socket
  distinct : ∀ i j, 0 ≤ (o.accept i).toInt → o.accept i = o.accept j → i = j

/-- The connection phase succeeds for `m` tasks. -/
structure Outcomes.Connects (o : Outcomes) (m : Nat) : Prop where
  socket : o.socket ≠ -1
  setup : o.setup = true
  listen : o.listen = true
  accept : ∀ k, k < m → 0 ≤ (o.accept k).toInt

/-! ## The accepting loop -/

section

variable {o : Outcomes} {tasks : TasksForWorkers}

/-- The task list when the connections `n, …, n + j - 1` are entered. -/
def connected (accept : Nat → Fd) (n j : Nat) (task : List HandlerInfo) : List HandlerInfo :=
  task.mapIdx fun i t => if n ≤ i ∧ i < n + j then { t with socket := accept i } else t

theorem connected_zero (accept : Nat → Fd) (n : Nat) (task : List HandlerInfo) :
    connected accept n 0 task = task := by
  have hid : ∀ i, ¬(n ≤ i ∧ i < n + 0) := fun i => by omega
  simp only [connected, if_neg (hid _)]
  exact List.mapIdx_eq_iff.mpr fun i => by simp

/-- The loop makes `j` connections: all of them, or as many as there are before the first failure.
    Induction on the rounds that are left. -/
theorem acceptLoop_eq (accept : Nat → Fd) (rounds n : Nat) (task : List HandlerInfo)
    (hlen : n + rounds ≤ task.length) : ∃ j, j ≤ rounds ∧
      acceptLoop accept rounds n task = some
        (if j = rounds then .success else .eConn, n + j, connected accept n j task) ∧
      (∀ i, n ≤ i → i < n + j → 0 ≤ (accept i).toInt) ∧
      (j < rounds → (accept (n + j)).toInt < 0) := by
  induction rounds generalizing n task with
  | zero =>
    refine ⟨0, Nat.le_refl 0, ?_, fun i hlo hhi => by omega, fun h => by omega⟩
    simp [acceptLoop, connected_zero]
  | succ rounds ih =>
    by_cases hfail : (accept n).toInt < 0
    · refine ⟨0, Nat.zero_le _, ?_, fun i hlo hhi => by omega, fun _ => hfail⟩
      simp [acceptLoop, hfail, connected_zero]
    · have hstore : Lib.storeAt task n (fun t => { t with socket := accept n }) =
          some (task.mapIdx fun i t => if i = n then { t with socket := accept n } else t) :=
        Lib.storeAt_of_lt _ (by omega)
      obtain ⟨j, hj, hloop, hok, hstop⟩ := ih (n + 1)
        (task.mapIdx fun i t => if i = n then { t with socket := accept n } else t)
        (by rw [List.length_mapIdx]; omega)
      refine ⟨j + 1, by omega, ?_, fun i hlo hhi => ?_, fun h => ?_⟩
      · rw [acceptLoop, if_neg hfail, hstore, Option.bind_some, hloop, connected,
          List.mapIdx_mapIdx]
        simp only [Nat.add_right_cancel_iff, Option.some.injEq, Prod.mk.injEq, true_and]
        refine ⟨by omega, congrArg (fun f => task.mapIdx f) ?_⟩
        funext i t
        simp only [Function.comp_apply]
        by_cases hi : i = n
        · subst hi
          rw [if_neg (by omega), if_pos rfl, if_pos (by omega)]
        · rw [if_neg hi]
          by_cases hin : n + 1 ≤ i ∧ i < n + 1 + j
          · rw [if_pos hin, if_pos (by omega)]
          · rw [if_neg hin, if_neg (by omega)]
      · rcases Nat.eq_or_lt_of_le hlo with rfl | hlt
        · omega
        · exact hok i hlt (by omega)
      · have h := hstop (by omega)
        rwa [show n + 1 + j = n + (j + 1) by omega] at h

/-- The descriptors in the task list: the accepted ones, then the zeros of `calloc`. -/
theorem sockets_connected (accept : Nat → Fd) (j : Nat) {task : List HandlerInfo}
    (htask : ∀ t ∈ task, t.socket = 0) : (connected accept 0 j task).map (·.socket) =
      (List.range task.length).map fun i => if i < j then accept i else 0 := by
  refine List.ext_getElem (by simp [connected]) fun i hi _ => ?_
  have hlt : i < task.length := by simpa [connected] using hi
  simp only [connected, List.getElem_map, List.getElem_mapIdx, List.getElem_range, Nat.zero_le,
    true_and, Nat.zero_add]
  split
  · rfl
  · exact htask _ (List.getElem_mem hlt)

/-! ## The connection phase -/

theorem getTcpConnections_success (ht : tasks.Ready) (hc : o.Connects tasks.task.length) :
    getTcpConnections o tasks = some (.success,
      { tasks with task := connected o.accept 0 tasks.task.length tasks.task },
      ⟨[o.socket], (List.range tasks.task.length).map o.accept, [o.socket], []⟩) := by
  have hcount := ht.count
  have hcreate : createServerSocket o = (.success, o.socket, [o.socket]) := by
    rw [createServerSocket, if_neg hc.socket, if_neg (by simp [hc.setup])]
  obtain ⟨j, hj, hloop, -, hstop⟩ :=
    acceptLoop_eq o.accept tasks.size.toInt.toNat 0 tasks.task (by omega)
  obtain rfl : j = tasks.task.length := by
    by_contra hne
    have hneg := hstop (by omega)
    have hpos := hc.accept j (by omega)
    rw [Nat.zero_add] at hneg
    omega
  rw [if_pos (by omega), Nat.zero_add] at hloop
  simp [getTcpConnections, hcreate, hc.listen, hloop]

/-- After a failure some task is left without a connection, and no later caller is told. -/
theorem getTcpConnections_failure (ht : tasks.Ready) (hc : ¬o.Connects tasks.task.length) :
    ∃ error log n, getTcpConnections o tasks =
        some (error, { tasks with task := connected o.accept 0 n tasks.task }, log) ∧
      error ≠ .success ∧ n < tasks.task.length ∧ (∀ fd ∈ log.sockets, fd = o.socket) ∧
      log.accepted = (List.range n).map o.accept := by
  have hcount := ht.count
  have hsome := ht.some
  have hkeep : { tasks with task := connected o.accept 0 0 tasks.task } = tasks := by
    rw [connected_zero]
  by_cases hsocket : o.socket = -1
  · refine ⟨.eSock, ⟨[], [], [o.junk], []⟩, 0, ?_, by decide, hsome, by simp, rfl⟩
    have hcreate : createServerSocket o = (.eSock, o.junk, []) := if_pos hsocket
    rw [hkeep]
    simp [getTcpConnections, hcreate]
  by_cases hsetup : o.setup = false
  · refine ⟨.eSock, ⟨[o.socket], [], [o.junk], []⟩, 0, ?_, by decide, hsome, by simp, rfl⟩
    have hcreate : createServerSocket o = (.eSock, o.junk, [o.socket]) := by
      rw [createServerSocket, if_neg hsocket, if_pos hsetup]
    rw [hkeep]
    simp [getTcpConnections, hcreate]
  have hcreate : createServerSocket o = (.success, o.socket, [o.socket]) := by
    rw [createServerSocket, if_neg hsocket, if_neg hsetup]
  by_cases hlisten : o.listen = false
  · refine ⟨.eSock, ⟨[o.socket], [], [o.socket], []⟩, 0, ?_, by decide, hsome, by simp, rfl⟩
    rw [hkeep]
    simp [getTcpConnections, hcreate, hlisten]
  -- an accept fails: the loop has stopped short of the last task
  obtain ⟨j, hj, hloop, hok, -⟩ :=
    acceptLoop_eq o.accept tasks.size.toInt.toNat 0 tasks.task (by omega)
  have hne : j ≠ tasks.size.toInt.toNat := by
    rintro rfl
    exact hc ⟨hsocket, by simpa using hsetup, by simpa using hlisten,
      fun k hk => hok k (Nat.zero_le k) (by omega)⟩
  rw [if_neg hne, Nat.zero_add] at hloop
  refine ⟨.eConn, ⟨[o.socket], (List.range j).map o.accept,
    ((connected o.accept 0 j tasks.task).take j).map (·.socket) ++ [o.socket], []⟩, j, ?_,
    by decide, by omega, by simp, rfl⟩
  simp [getTcpConnections, hcreate, hlisten, hloop]

/-! ## The run -/

theorem take_connected (ht : tasks.Ready) (n : Nat) :
    (connected o.accept 0 n tasks.task).take tasks.size.toInt.toNat =
      connected o.accept 0 n tasks.task := by
  have hcount := ht.count
  refine List.take_of_length_le ?_
  rw [connected, List.length_mapIdx]
  omega

/-- Every handler uses the descriptor of its task. -/
theorem handlerSends_mem {s : Nat × Fd} (hs : s ∈ handlerSends o tasks) :
    s.2 ∈ tasks.task.map (·.socket) := by
  unfold handlerSends at hs
  split at hs
  · cases hs
  · obtain ⟨i, -, hi⟩ := List.mem_filterMap.mp hs
    split at hi
    · obtain ⟨t, ht, rfl⟩ := Option.map_eq_some_iff.mp hi
      exact List.mem_map_of_mem (List.mem_of_getElem? ht)
    · cases hi

theorem socketsOwned_of_connects (ht : tasks.Ready) (hk : o.Kernel)
    (hc : o.Connects tasks.task.length) :
    ∃ error log, runServer o tasks = some (error, log) ∧ SocketsOwned error log := by
  obtain ⟨m, hm⟩ : ∃ m, m = tasks.task.length := ⟨_, rfl⟩
  have hall : (connected o.accept 0 m tasks.task).map (·.socket) =
      (List.range m).map o.accept := by
    rw [sockets_connected _ _ ht.unconnected, ← hm]
    exact List.map_congr_left fun i hi => if_pos (List.mem_range.mp hi)
  have hnodup : ((List.range m).map o.accept).Nodup := by
    refine List.Nodup.map_on (fun i hi j _ hij => ?_) List.nodup_range
    exact hk.distinct i j (hc.accept i (by simpa [← hm] using hi)) hij
  have hserver : o.socket ∉ (List.range m).map o.accept := by
    intro hmem
    obtain ⟨i, hi, heq⟩ := List.mem_map.mp hmem
    exact hk.apart i (hc.accept i (by simpa [← hm] using hi)) heq
  refine ⟨.success, ⟨[o.socket], (List.range m).map o.accept,
    [o.socket] ++ (List.range m).map o.accept,
    handlerSends o { tasks with task := connected o.accept 0 m tasks.task }⟩, ?_, ?_⟩
  · rw [runServer, getTcpConnections_success ht hc, Option.bind_eq_bind, Option.bind_some]
    dsimp only
    rw [take_connected ht, ← hm, hall]
    rfl
  · refine ⟨fun fd hfd => ?_, fun fd hfd => hfd, fun s hs => ?_, fun h => absurd rfl h⟩
    · have hne : o.socket ≠ fd := by
        rintro rfl
        exact hserver hfd
      rw [List.singleton_append, List.count_cons_of_ne hne]
      exact List.count_eq_one_of_mem hnodup hfd
    · have hmem := handlerSends_mem hs
      rw [hall] at hmem
      exact List.mem_append_right _ hmem

/-- After a failed connection phase the zero of `calloc` is closed. -/
theorem not_socketsOwned (ht : tasks.Ready) (hk : o.Kernel)
    (hc : ¬o.Connects tasks.task.length) :
    ∃ error log, runServer o tasks = some (error, log) ∧ ¬SocketsOwned error log := by
  obtain ⟨error, log, n, hget, -, hn, hsockets, haccepted⟩ := getTcpConnections_failure ht hc
  refine ⟨error, { log with
    closed := log.closed ++ (connected o.accept 0 n tasks.task).map (·.socket)
    sent := handlerSends o { tasks with task := connected o.accept 0 n tasks.task } }, ?_, ?_⟩
  · rw [runServer, hget, Option.bind_eq_bind, Option.bind_some]
    dsimp only
    rw [take_connected ht]
    rfl
  · intro howned
    have hzero : (0 : Fd) ∈ (connected o.accept 0 n tasks.task).map (·.socket) := by
      rw [sockets_connected _ _ ht.unconnected, List.mem_map]
      exact ⟨n, List.mem_range.mpr hn, if_neg (Nat.lt_irrefl n)⟩
    rcases List.mem_append.mp (howned.closed 0 (List.mem_append_right _ hzero)) with h | h
    · exact hk.socket (hsockets 0 h).symm
    · rw [haccepted] at h
      obtain ⟨i, -, hi⟩ := List.mem_map.mp h
      exact hk.accept i hi

/-- **The sockets of the server.** For every number of tasks and all answers of the kernel the run
    keeps its sockets in order if and only if the connection phase succeeds. After a failure two
    things go wrong at once: what was accepted is closed by `get_tcp_connections` and by
    `run_server` again, and the tasks that have no connection hold descriptor 0. -/
theorem socketsOwned_iff (o : Outcomes) (tasks : TasksForWorkers) (ht : tasks.Ready)
    (hk : o.Kernel) : ∃ error log, runServer o tasks = some (error, log) ∧
      (SocketsOwned error log ↔ o.Connects tasks.task.length) := by
  by_cases hc : o.Connects tasks.task.length
  · obtain ⟨error, log, hrun, howned⟩ := socketsOwned_of_connects ht hk hc
    exact ⟨error, log, hrun, iff_of_true howned hc⟩
  · obtain ⟨error, log, hrun, howned⟩ := not_socketsOwned ht hk hc
    exact ⟨error, log, hrun, iff_of_false howned hc⟩

/-- What `divide_work` hands to `run_server`, for as many tasks as an `int` can count. -/
theorem divideWork_ready {nCpus nMachines nThreads : BitVec 32} {begin_ end_ : ℚ}
    (hcpus : nCpus ≠ 0) (hm : 1 ≤ nMachines.toNat) (hn : 1 ≤ nThreads.toNat)
    (hn' : nThreads.toNat < 2 ^ 31) : ∃ tasks, divideWork nCpus ⟨true, true⟩ nMachines nThreads
      begin_ end_ = some (some tasks, .success) ∧ tasks.Ready := by
  obtain ⟨m, hmin⟩ : ∃ m, m = min nMachines.toNat nThreads.toNat := ⟨_, rfl⟩
  have hsize : (BitVec.ofNat 32 m).toNat = m := toNat_ofNat_of_le (w := nThreads) (by omega)
  have hint : (BitVec.ofNat 32 m).toInt = m := by
    rw [BitVec.toInt_eq_toNat_of_lt (by omega), hsize]
  refine ⟨_, divideWork_eq hcpus hm hn hn' hmin rfl, ?_, ?_, fun t ht => ?_⟩
  · rw [List.length_map, List.length_range]
    exact hint
  · rw [List.length_map, List.length_range]
    omega
  · obtain ⟨i, -, rfl⟩ := List.mem_map.mp ht
    unfold taskInfo
    dsimp only
    split <;> rfl

end

/-- Two tasks, the server's socket is 4 and the workers' are 5 and 6. -/
theorem socketsOwned_two : ∃ error log,
    runServer ⟨4, true, 9, true, fun k => if k < 2 then BitVec.ofNat 32 (5 + k) else -1, true, 2,
      [1, 0]⟩ ⟨[zeroHandler, zeroHandler], 2⟩ = some (error, log) ∧
    (SocketsOwned error log ↔ Outcomes.Connects ⟨4, true, 9, true,
      fun k => if k < 2 then BitVec.ofNat 32 (5 + k) else -1, true, 2, [1, 0]⟩ 2) := by
  refine socketsOwned_iff _ _ ⟨by decide, by decide, by simp [zeroHandler]⟩
    ⟨by decide, fun k => ?_, fun k => ?_, fun i j => ?_⟩
  · rcases k with _ | _ | k <;> simp
  · rcases k with _ | _ | k <;> simp
  · rcases i with _ | _ | i <;> rcases j with _ | _ | j <;> simp

/-- The second of two `accept ()` fails: the first connection is closed twice, the standard input
    is closed, and a handler sends its task all the same. -/
theorem failure_unnoticed : ¬∀ (o : Outcomes) (tasks : TasksForWorkers), tasks.Ready →
    o.Kernel → ∃ error log, runServer o tasks = some (error, log) ∧ SocketsOwned error log := by
  intro hall
  obtain ⟨error, log, hrun, howned⟩ := hall
    ⟨4, true, 9, true, fun k => if k = 0 then 5 else -1, true, 2, [0]⟩
    ⟨[zeroHandler, zeroHandler], 2⟩ ⟨by decide, by decide, by simp [zeroHandler]⟩
    ⟨by decide, fun k => by rcases k with _ | k <;> simp,
      fun k => by rcases k with _ | k <;> simp,
      fun i j => by rcases i with _ | i <;> rcases j with _ | j <;> simp⟩
  have hlog : runServer ⟨4, true, 9, true, fun k => if k = 0 then 5 else -1, true, 2, [0]⟩
      ⟨[zeroHandler, zeroHandler], 2⟩ =
        some (.eConn, ⟨[4], [5], [5, 4, 5, 0], [(0, 5)]⟩) := by decide
  rw [hlog, Option.some.injEq, Prod.mk.injEq] at hrun
  obtain ⟨rfl, rfl⟩ := hrun
  exact absurd (howned.once 5 (by decide)) (by decide)

end CompTech.Network
