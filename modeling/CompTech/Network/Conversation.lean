import CompTech.Network.Handlers

/-!
# Handlers and workers in conversation

For each task there is one conversation: the handler puts at most one task into the connection,
the worker takes it and answers with what it computed of it. `Talks` says how far the two sides
are, each side in terms of what it has put in and taken out (`HandlerStage`, `WorkerStage`), so a
step of one side needs nothing of the other.

The second half is about single steps: what a step of `get_result` and of a handler can do
(`getResult_cases`, `workHandler_cases`), and that each leaves less to do than there was
(`GetResultState.measure`).
-/

namespace CompTech.Network

variable {V : Type} {integrate : WorkerInfo → V} {w : GetResultCalls} {tasks : TasksForWorkers}

/-! ## The two sides of a conversation

Each side says only what it knows itself. What follows about both is in `Talks.received` and
`Talks.head`, and comes from the channels alone: what is received was sent.

A stage is a statement about one side's own reads and writes, so a step of the other side cannot
break it. The two are compared in one place only, where something is received: a channel hands out
what was put in, in order, so the first thing received is the first thing sent. -/

/-- What the worker has taken and put in, at each place of `do_computation`. -/
def WorkerStage (integrate : WorkerInfo → V) (pc : WorkerPc V)
    (received : List (Nat × WorkerInfo)) (sent : List (Reply V)) : Prop :=
  match pc with
  | .receiving => received = [] ∧ sent = []
  | .computing info => sent = [] ∧ ∃ x, received = [x] ∧ info = x.2
  | .replying v => sent = [] ∧ ∃ x, received = [x] ∧ v = integrate x.2
  | .pinging => ∃ x, received = [x] ∧ sent = [.double (integrate x.2)]
  | .ended => received = [] ∧ sent = [] ∨
      ∃ x, received = [x] ∧ (sent = [] ∨ ∃ rest, sent = .double (integrate x.2) :: rest)

/-- What handler `n` has put in and taken, at each place of `work_handler`. -/
def HandlerStage (n : Nat) (info : WorkerInfo) (h : Option (Handler V))
    (sent : List (Nat × WorkerInfo)) (received : List (Reply V)) : Prop :=
  match h with
  | none | some (.running .malloc _) | some (.running .send _) => sent = [] ∧ received = []
  | some (.running _ _) => sent = [(n, info)] ∧ received = []
  | some (.ended (some v)) | some (.joined (some v)) => sent = [(n, info)] ∧ received = [.double v]
  | some (.ended none) | some (.joined none) | some .cancelled =>
    (sent = [] ∨ sent = [(n, info)]) ∧ received = []

/-- The two sides of the conversation about task `n`. -/
structure Talks (integrate : WorkerInfo → V) (n : Nat) (info : WorkerInfo)
    (h : Option (Handler V)) (l : Link V) : Prop where
  worker : WorkerStage integrate l.worker l.down.received l.up.sent
  handler : HandlerStage n info h l.down.sent l.up.received

/-- A worker may end at any place. -/
theorem WorkerStage.fails {pc : WorkerPc V} {received : List (Nat × WorkerInfo)}
    {sent : List (Reply V)} (h : WorkerStage integrate pc received sent) :
    WorkerStage integrate .ended received sent := by
  cases pc with
  | receiving => exact .inl h
  | computing info | replying v =>
    obtain ⟨hsent, x, hx, -⟩ := h
    exact .inr ⟨x, hx, .inl hsent⟩
  | pinging =>
    obtain ⟨x, hx, hsent⟩ := h
    exact .inr ⟨x, hx, .inr ⟨[], hsent⟩⟩
  | ended => exact h

/-- The first thing a worker sends is what it computed of the task it took. -/
theorem WorkerStage.head {pc : WorkerPc V} {received : List (Nat × WorkerInfo)}
    {sent rest : List (Reply V)} {r : Reply V} (h : WorkerStage integrate pc received sent)
    (hsent : sent = r :: rest) : ∃ x, received = [x] ∧ r = .double (integrate x.2) := by
  subst hsent
  cases pc with
  | receiving => exact absurd h.2 (List.cons_ne_nil _ _)
  | computing info | replying v => exact absurd h.1 (List.cons_ne_nil _ _)
  | pinging =>
    obtain ⟨x, hx, hcons⟩ := h
    exact ⟨x, hx, (List.cons.inj hcons).1⟩
  | ended =>
    rcases h with ⟨-, hnil⟩ | ⟨x, hx, hnil | ⟨rest', hcons⟩⟩
    · cases hnil
    · cases hnil
    · exact ⟨x, hx, (List.cons.inj hcons).1⟩

/-- A step of the worker moves its own ends of the two channels. -/
theorem doComputation_stage {l l' : Link V} {ok : Bool}
    (h : WorkerStage integrate l.worker l.down.received l.up.sent)
    (hst : doComputation integrate l ok = some l') :
    WorkerStage integrate l'.worker l'.down.received l'.up.sent ∧
      l'.down.sent = l.down.sent ∧ l'.up.received = l.up.received ∧ l'.broken = l.broken := by
  unfold doComputation at hst
  split at hst
  · cases hst
  · cases hst
    exact ⟨h.fails, rfl, rfl, rfl⟩
  · rename_i hpc
    obtain ⟨⟨x, down⟩, hpop, rfl⟩ := Option.map_eq_some_iff.mp hst
    obtain ⟨hsent, hreceived⟩ := Lib.Channel.pop_cases hpop
    rw [hpc] at h
    refine ⟨⟨h.2, x, ?_, rfl⟩, hsent, rfl, rfl⟩
    rw [hreceived, h.1, List.nil_append]
  · rename_i info hpc
    cases hst
    rw [hpc] at h
    obtain ⟨hsent, x, hx, rfl⟩ := h
    exact ⟨⟨hsent, x, hx, rfl⟩, rfl, rfl, rfl⟩
  · rename_i v hpc
    cases hst
    rw [hpc] at h
    obtain ⟨hsent, x, hx, rfl⟩ := h
    refine ⟨⟨x, hx, ?_⟩, rfl, rfl, rfl⟩
    rw [Lib.Channel.push_sent, hsent, List.nil_append]
  · rename_i hpc
    cases hst
    rw [hpc] at h
    obtain ⟨x, hx, hsent⟩ := h
    refine ⟨.inr ⟨x, hx, .inr ⟨[.ping], ?_⟩⟩, rfl, rfl, rfl⟩
    rw [Lib.Channel.push_sent, hsent, List.singleton_append]

/-- The worker has not sent anything, and nobody has failed: it is the worker's turn. -/
theorem doComputation_goes {l : Link V} {n : Nat} {info : WorkerInfo}
    (hw : WorkerStage integrate l.worker l.down.received l.up.sent)
    (hsent : l.down.sent = [(n, info)]) (hup : l.up.received = [])
    (hready : l.ready = false) :
    ∃ l', doComputation integrate l true = some l' := by
  unfold Link.ready Link.gone at hready
  unfold doComputation
  cases hpc : l.worker with
  | receiving =>
    rw [hpc] at hw
    obtain ⟨x, down, hpop⟩ := l.down.exists_pop (by rw [hsent, hw.1]; exact Nat.zero_lt_one)
    exact ⟨_, Option.map_eq_some_iff.mpr ⟨(x, down), hpop, rfl⟩⟩
  | computing info | replying v => exact ⟨_, rfl⟩
  | pinging =>
    -- its result is there, so the connection is ready
    rw [hpc] at hw
    obtain ⟨x, -, hx⟩ := hw
    obtain ⟨r, up, hpop⟩ := l.up.exists_pop (by rw [hup, hx]; exact Nat.zero_lt_one)
    rw [hpop] at hready
    simp at hready
  | ended =>
    rw [hpc] at hready
    simp [WorkerPc.gone] at hready

namespace Talks

variable {n : Nat} {info : WorkerInfo} {h : Option (Handler V)} {l : Link V}

theorem new : Talks integrate n info none Link.new := ⟨⟨rfl, rfl⟩, ⟨rfl, rfl⟩⟩

/-- What the worker has taken was put in by the handler: its task, at most once. -/
theorem received (ht : Talks integrate n info h l) :
    l.down.received = [] ∨ l.down.received = [(n, info)] := by
  have hsent : l.down.sent = [] ∨ l.down.sent = [(n, info)] := by
    have hh := ht.handler
    unfold HandlerStage at hh
    split at hh
    · exact .inl hh.1
    · exact .inl hh.1
    · exact .inl hh.1
    · exact .inr hh.1
    · exact .inr hh.1
    · exact .inr hh.1
    · exact hh.1
    · exact hh.1
    · exact hh.1
  -- what was taken is a prefix of what was put in
  have hprefix := l.down.ordered
  rcases hsent with hsent | hsent <;> rw [hsent] at hprefix
  · exact .inl (List.prefix_nil.mp hprefix)
  · exact List.prefix_cons_iff.mp hprefix |>.imp_right fun ⟨t, ht, hpre⟩ => by
      rw [ht, List.prefix_nil.mp hpre]

/-- What arrives first is the worker's result for the handler's own task. -/
theorem head {r : Reply V} {rest : List (Reply V)} (ht : Talks integrate n info h l)
    (hr : l.up.sent = r :: rest) : r = .double (integrate info) := by
  obtain ⟨x, hx, rfl⟩ := ht.worker.head hr
  rcases ht.received with hnone | hone
  · rw [hnone] at hx
    cases hx
  · rw [hone] at hx
    rw [← List.singleton_inj.mp hx]

/-- The part a handler has received is what the worker computed of its task. -/
theorem part {v : V} (ht : Talks integrate n info h l)
    (hv : h = some (.ended (some v)) ∨ h = some (.joined (some v))) : v = integrate info := by
  have hup : l.up.received = [.double v] := by
    have hh := ht.handler
    rcases hv with rfl | rfl <;> exact hh.2
  obtain ⟨rest, hrest⟩ := l.up.ordered
  rw [hup] at hrest
  exact Reply.double.inj (ht.head hrest.symm)

end Talks

/-! ## All conversations

The lemmas say which conversations a step touches: a handler its own, a step at a connection the one
whose task has that descriptor. That there is one only is `Apart`. -/

/-- Every task has its conversation, with the handler of its number and the worker at its
    descriptor. -/
def AllTalk (integrate : WorkerInfo → V) (tasks : TasksForWorkers) (threads : List (Handler V))
    (links : Fd → Link V) : Prop :=
  ∀ n t, tasks.task[n]? = some t →
    Talks integrate n t.wInfo threads[n]? (links t.socket)

/-- Every task has its own connection. Accepted descriptors are, as long as none is closed. -/
def TasksForWorkers.Apart (tasks : TasksForWorkers) : Prop :=
  ∀ (i j : Nat) (t u : HandlerInfo), tasks.task[i]? = some t → tasks.task[j]? = some u →
    t.socket = u.socket → i = j

/-- What the machine is started with: a connection for every task, with a descriptor that `select`
    can wait for, and no failing `pthread_create` or `pthread_join`. -/
structure Collectable (w : GetResultCalls) (tasks : TasksForWorkers) : Prop where
  count : tasks.size.toInt = tasks.task.length
  nonempty : 0 < tasks.task.length
  apart : tasks.Apart
  socket : ∀ t ∈ tasks.task, 0 ≤ t.socket.toInt ∧ t.socket.toInt < FD_SETSIZE
  create : ∀ i, w.create i = true
  join : ∀ j, w.join j = true

namespace AllTalk

variable {threads : List (Handler V)} {links : Fd → Link V} {j : Nat} {h h' : Handler V}

/-- `get_result` changes what is said of a thread, and the conversation stays where it is. -/
theorem set (hs : AllTalk integrate tasks threads links) (hj : threads[j]? = some h)
    (hstage : ∀ info sent received, HandlerStage j info (some h) sent received →
      HandlerStage j info (some h') sent received) :
    AllTalk integrate tasks (threads.set j h') links := by
  intro n t ht
  have htalk := hs n t ht
  by_cases hn : j = n
  · subst hn
    rw [List.getElem?_set_self (List.getElem?_eq_some_iff.mp hj).1]
    rw [hj] at htalk
    exact ⟨htalk.worker, hstage _ _ _ htalk.handler⟩
  · rwa [List.getElem?_set_ne hn]

theorem push (hs : AllTalk integrate tasks threads links) :
    AllTalk integrate tasks (threads ++ [.running .malloc false]) links := by
  intro n t ht
  have htalk := hs n t ht
  rcases Nat.lt_trichotomy n threads.length with hlt | rfl | hgt
  · rwa [List.getElem?_append_left hlt]
  · -- the new handler has put in nothing, like one that is not there
    rw [List.getElem?_eq_none (Nat.le_refl _)] at htalk
    rw [List.getElem?_concat_length]
    exact ⟨htalk.worker, htalk.handler⟩
  · rw [List.getElem?_eq_none (Nat.le_of_lt hgt)] at htalk
    rwa [List.getElem?_eq_none (by simpa using hgt)]

/-- A handler moves its own conversation only. -/
theorem handler (hs : AllTalk integrate tasks threads links) (hd : tasks.Apart)
    (hj : threads[j]? = some h) {t : HandlerInfo} (ht : tasks.task[j]? = some t) {l : Link V}
    (htalk : Talks integrate j t.wInfo (some h') l) :
    AllTalk integrate tasks (threads.set j h') fun fd => if fd = t.socket then l else links fd := by
  intro n u hu
  by_cases hn : j = n
  · subst hn
    obtain rfl : t = u := Option.some.inj (ht.symm.trans hu)
    dsimp only
    rw [List.getElem?_set_self (List.getElem?_eq_some_iff.mp hj).1, if_pos rfl]
    exact htalk
  · dsimp only
    rw [List.getElem?_set_ne hn, if_neg fun heq => hn (hd j n t u ht hu heq.symm)]
    exact hs n u hu

/-- A connection changes at the worker's end, or as a whole. -/
theorem link (hs : AllTalk integrate tasks threads links) {fd : Fd} {l : Link V}
    (hw : WorkerStage integrate l.worker l.down.received l.up.sent)
    (hsent : l.down.sent = (links fd).down.sent) (hup : l.up.received = (links fd).up.received) :
    AllTalk integrate tasks threads fun fd' => if fd' = fd then l else links fd' := by
  intro n t ht
  have htalk := hs n t ht
  dsimp only
  by_cases hfd : t.socket = fd
  · rw [if_pos hfd]
    subst hfd
    refine ⟨hw, ?_⟩
    rw [hsent, hup]
    exact htalk.handler
  · rwa [if_neg hfd]

end AllTalk

/-! ## What a step of `get_result` does

The moves are listed with all they change, so that the invariant and the measure are proved from the
same list. `miss` is a thread that has ended without a part; all threads are cancelled then. -/

/-- The steps of `get_result` for `m` tasks, when no thread call fails and `pthread_cancel` does no
    harm. -/
inductive GetResultMoves [Add V] (m : Nat) (s : GetResultState V) : GetResultState V → Prop
  | create (i : Nat) (hpc : s.pc = .creating i) (hlt : i < m) :
      GetResultMoves m s { s with
        pc := .creating (i + 1), threads := s.threads ++ [.running .malloc false] }
  | created (i : Nat) (hpc : s.pc = .creating i) (hge : m ≤ i) :
      GetResultMoves m s { s with pc := .joining 0 }
  | join (j : Nat) (part : V) (hpc : s.pc = .joining j) (hlt : j < m)
      (hended : s.threads[j]? = some (.ended (some part))) :
      GetResultMoves m s { s with
        pc := .joining (j + 1), threads := s.threads.set j (.joined (some part)),
        result := s.result + part }
  | miss (j : Nat) (hpc : s.pc = .joining j) (hlt : j < m)
      (hended : s.threads[j]? = some (.ended none)) :
      GetResultMoves m s { s with
        pc := .cancelling 0, threads := s.threads.set j (.joined none), error := .eThread }
  | write (j : Nat) (hpc : s.pc = .joining j) (hge : m ≤ j) :
      GetResultMoves m s { s with pc := .returned, res := some s.result }
  | cancel (j : Nat) (pc : HandlerPc) (c : Bool) (hpc : s.pc = .cancelling j)
      (hrun : s.threads[j]? = some (.running pc c)) :
      GetResultMoves m s { s with
        pc := .cancelling (j + 1), threads := s.threads.set j (.running pc true) }
  | pass (j : Nat) (hpc : s.pc = .cancelling j) (hlt : j < s.threads.length) :
      GetResultMoves m s { s with pc := .cancelling (j + 1) }
  | leave (j : Nat) (hpc : s.pc = .cancelling j) : GetResultMoves m s { s with pc := .returned }

/-- The case analysis of `getResult`, once. -/
theorem getResult_cases [Add V] {s t : GetResultState V} (hc : Collectable w tasks)
    (ht : getResult w tasks s true = some t) : GetResultMoves tasks.task.length s t := by
  have hcount := hc.count
  unfold getResult at ht
  split at ht
  · rename_i i hpc
    split at ht
    · rw [if_pos (hc.create i)] at ht
      cases ht
      exact .create i hpc (by omega)
    · cases ht
      exact .created i hpc (by omega)
  · rename_i j hpc
    split at ht
    · rw [if_pos (hc.join j)] at ht
      split at ht
      · rename_i part hended
        cases ht
        exact .join j part hpc (by omega) hended
      · rename_i hended
        cases ht
        exact .miss j hpc (by omega) hended
      · cases ht
    · cases ht
      exact .write j hpc (by omega)
  · rename_i j hpc
    split at ht
    · cases ht
      exact .leave j hpc
    · rename_i hin
      cases ht
      exact .pass j hpc (List.getElem?_eq_some_iff.mp hin).1
    · rename_i pc c hrun
      cases ht
      exact .cancel j pc c hpc hrun
    · rename_i hin
      cases ht
      exact .pass j hpc (List.getElem?_eq_some_iff.mp hin).1
  · cases ht
  · cases ht

/-! ## What is left to do

A bound on the calls of all parties, as a sum over the handlers and the connections. -/

/-- The steps that are left to `get_result`. It may still have to cancel all threads. -/
def GetResultPc.left (m : Nat) : GetResultPc → Nat
  | .creating i => m - i + (2 * m + 3)
  | .joining j => m - j + (m + 2)
  | .cancelling j => m - j + 1
  | .returned | .dead => 0

/-- The calls that are left to a handler. -/
def HandlerPc.left : HandlerPc → Nat
  | .malloc => 4
  | .send => 3
  | .select => 2
  | .recv => 1

/-- A handler that is not started has everything left to do. -/
def Handler.left : Option (Handler V) → Nat
  | none => 4
  | some (.running pc _) => pc.left
  | some _ => 0

/-- The calls that are left to a worker. -/
def WorkerPc.left : WorkerPc V → Nat
  | .receiving => 4
  | .computing _ => 3
  | .replying _ => 2
  | .pinging => 1
  | .ended => 0

/-- The steps that are left at the other end: those of the worker, and the failure of the
    connection. -/
def Link.left (l : Link V) : Nat := l.worker.left + if l.broken then 0 else 1

/-- Those that are left to all handlers. -/
def threadsLeft (m : Nat) (threads : List (Handler V)) : Nat :=
  ((List.range m).map fun i => Handler.left threads[i]?).sum

/-- Those that are left at all connections. -/
def linksLeft (tasks : TasksForWorkers) (links : Fd → Link V) : Nat :=
  (tasks.task.map fun t => (links t.socket).left).sum

/-- The calls left to `get_result`, to its handlers and to the workers. -/
def GetResultState.measure (tasks : TasksForWorkers) (s : GetResultState V) : Nat :=
  s.pc.left tasks.task.length + threadsLeft tasks.task.length s.threads +
    linksLeft tasks s.links

section Left

variable {threads : List (Handler V)} {links : Fd → Link V} {h h' : Handler V} {i m : Nat}

theorem left_set (hi : threads[i]? = some h) (hle : Handler.left (some h') ≤ Handler.left (some h))
    (j : Nat) : Handler.left (threads.set i h')[j]? ≤ Handler.left threads[j]? := by
  by_cases hij : i = j
  · subst hij
    rw [List.getElem?_set_self (List.getElem?_eq_some_iff.mp hi).1, hi]
    exact hle
  · rw [List.getElem?_set_ne hij]

theorem threadsLeft_set_le (hi : threads[i]? = some h)
    (hle : Handler.left (some h') ≤ Handler.left (some h)) :
    threadsLeft m (threads.set i h') ≤ threadsLeft m threads :=
  List.sum_le_sum fun j _ => left_set hi hle j

theorem threadsLeft_set_lt (hi : threads[i]? = some h) (him : i < m)
    (hlt : Handler.left (some h') < Handler.left (some h)) :
    threadsLeft m (threads.set i h') < threadsLeft m threads := by
  refine List.sum_lt_sum _ _ (fun j _ => left_set hi (Nat.le_of_lt hlt) j)
    ⟨i, List.mem_range.mpr him, ?_⟩
  rw [List.getElem?_set_self (List.getElem?_eq_some_iff.mp hi).1, hi]
  exact hlt

/-- A handler that is started has everything left to do. -/
theorem threadsLeft_push (threads : List (Handler V)) :
    threadsLeft m (threads ++ [.running .malloc false]) = threadsLeft m threads := by
  refine congrArg List.sum (List.map_congr_left fun j _ => ?_)
  rcases Nat.lt_trichotomy j threads.length with hlt | rfl | hgt
  · rw [List.getElem?_append_left hlt]
  · rw [List.getElem?_concat_length, List.getElem?_eq_none (Nat.le_refl _)]
    rfl
  · rw [List.getElem?_eq_none (Nat.le_of_lt hgt), List.getElem?_eq_none (by simpa using hgt)]

theorem linksLeft_lt {fd : Fd} {l : Link V} (hfd : fd ∈ tasks.task.map (·.socket))
    (hlt : l.left < (links fd).left) :
    linksLeft tasks (fun fd' => if fd' = fd then l else links fd') < linksLeft tasks links := by
  obtain ⟨t, ht, rfl⟩ := List.mem_map.mp hfd
  refine List.sum_lt_sum _ _ (fun u _ => ?_) ⟨t, ht, ?_⟩
  · dsimp only
    split
    · rename_i heq
      rw [heq]
      exact Nat.le_of_lt hlt
    · exact Nat.le_refl _
  · dsimp only
    rw [if_pos rfl]
    exact hlt

theorem linksLeft_eq {fd : Fd} {l : Link V} (heq : l.left = (links fd).left) :
    linksLeft tasks (fun fd' => if fd' = fd then l else links fd') = linksLeft tasks links := by
  refine congrArg List.sum (List.map_congr_left fun u _ => ?_)
  dsimp only
  split
  · rename_i hu
    rw [hu]
    exact heq
  · rfl

/-- Every step of the worker is one it has not left. -/
theorem doComputation_left {l l' : Link V} {ok : Bool}
    (hst : doComputation integrate l ok = some l') : l'.left < l.left := by
  unfold doComputation at hst
  unfold Link.left
  split at hst
  · cases hst
  · rename_i hne
    cases hst
    have hpos : 0 < l.worker.left := by
      cases hpc : l.worker <;> first | exact Nat.succ_pos _ | exact absurd hpc hne
    exact Nat.add_lt_add_right hpos _
  · rename_i hpc
    obtain ⟨p, -, rfl⟩ := Option.map_eq_some_iff.mp hst
    rw [hpc]
    exact Nat.add_lt_add_right (show 3 < 4 by decide) _
  · rename_i hpc
    cases hst
    rw [hpc]
    exact Nat.add_lt_add_right (show 2 < 3 by decide) _
  · rename_i hpc
    cases hst
    rw [hpc]
    exact Nat.add_lt_add_right (show 1 < 2 by decide) _
  · rename_i hpc
    cases hst
    rw [hpc]
    exact Nat.add_lt_add_right Nat.zero_lt_one _

theorem measure_lt {s t : GetResultState V}
    (hpc : t.pc.left tasks.task.length < s.pc.left tasks.task.length)
    (hthreads : threadsLeft tasks.task.length t.threads ≤ threadsLeft tasks.task.length s.threads)
    (hlinks : t.links = s.links) : t.measure tasks < s.measure tasks := by
  unfold GetResultState.measure
  rw [hlinks]
  omega

theorem GetResultMoves.left [Add V] {s t : GetResultState V}
    (h : GetResultMoves tasks.task.length s t) (hs : s.threads.length ≤ tasks.task.length) :
    t.measure tasks < s.measure tasks := by
  cases h with
  | create i hpc hlt =>
    refine measure_lt ?_ (threadsLeft_push _).le rfl
    rw [hpc]
    show tasks.task.length - (i + 1) + _ < tasks.task.length - i + _
    omega
  | created i hpc hge =>
    refine measure_lt ?_ (Nat.le_refl _) rfl
    rw [hpc]
    show tasks.task.length - 0 + (tasks.task.length + 2) < tasks.task.length - i + _
    omega
  | join j part hpc hlt hended =>
    refine measure_lt ?_ (threadsLeft_set_le hended (Nat.zero_le _)) rfl
    rw [hpc]
    show tasks.task.length - (j + 1) + _ < tasks.task.length - j + _
    omega
  | miss j hpc hlt hended =>
    refine measure_lt ?_ (threadsLeft_set_le hended (Nat.zero_le _)) rfl
    rw [hpc]
    show tasks.task.length - 0 + 1 < tasks.task.length - j + _
    omega
  | write j hpc hge =>
    refine measure_lt ?_ (Nat.le_refl _) rfl
    rw [hpc]
    exact Nat.succ_pos _
  | cancel j pc c hpc hrun =>
    have hlt := (List.getElem?_eq_some_iff.mp hrun).1
    refine measure_lt ?_ (threadsLeft_set_le hrun (Nat.le_refl _)) rfl
    rw [hpc]
    show tasks.task.length - (j + 1) + 1 < tasks.task.length - j + 1
    omega
  | pass j hpc hlt =>
    refine measure_lt ?_ (Nat.le_refl _) rfl
    rw [hpc]
    show tasks.task.length - (j + 1) + 1 < tasks.task.length - j + 1
    omega
  | leave j hpc =>
    refine measure_lt ?_ (Nat.le_refl _) rfl
    rw [hpc]
    exact Nat.succ_pos _

theorem measure_start [Zero V] :
    (getResultStart w : GetResultState V).measure tasks ≤ 12 * tasks.task.length + 3 := by
  have hthreads : threadsLeft tasks.task.length ([] : List (Handler V)) =
      4 * tasks.task.length := by
    simp [threadsLeft, Handler.left, Nat.mul_comm]
  have hlinks : linksLeft tasks (fun _ => (Link.new : Link V)) = 5 * tasks.task.length := by
    simp [linksLeft, Link.left, Link.new, WorkerPc.left, Nat.mul_comm]
  have hpc : (getResultStart w : GetResultState V).pc.left tasks.task.length ≤
      3 * tasks.task.length + 3 := by
    unfold getResultStart
    cases w.calloc
    · exact Nat.zero_le _
    · show tasks.task.length - 0 + (2 * tasks.task.length + 3) ≤ _
      omega
  unfold GetResultState.measure
  rw [show (getResultStart w : GetResultState V).threads = [] from rfl, hthreads,
    show (getResultStart w : GetResultState V).links = fun _ => .new from rfl, hlinks]
  omega

end Left

/-! ## Steps of a handler

A handler that has been asked to end (`c`) may still go on for a while, since the end is an event of
its own. So `c` is carried along and not looked at. -/

/-- A handler that `get_result` has done nothing to but start it. -/
def Handler.Untouched : Handler V → Prop
  | .running _ false | .ended _ => True
  | _ => False

section Handlers

variable {s t : GetResultState V}

theorem setLink_self (s : GetResultState V) (fd : Fd) : s.setLink fd (s.links fd) = s := by
  unfold GetResultState.setLink
  congr
  funext fd'
  split
  · rename_i heq
    rw [heq]
  · rfl

/-- What a step of handler `i` in front of `pc` may make of the handler and of its connection:
    it comes closer to its end, and it does nothing at the worker's end. -/
structure HandlerMoves (integrate : WorkerInfo → V) (i : Nat) (info : WorkerInfo) (pc : HandlerPc)
    (c : Bool) (old : Link V) (h : Handler V) (l : Link V) : Prop where
  talks : Talks integrate i info (some h) l
  left : Handler.left (some h) < pc.left
  untouched : c = false → h.Untouched
  link : l.left = old.left

namespace HandlerMoves

variable {i : Nat} {info : WorkerInfo} {pc pc' : HandlerPc} {c : Bool} {l : Link V}

/-- The handler returns, and the connection stays as it is. -/
theorem fails (h : Talks integrate i info (some (.running pc c)) l) :
    HandlerMoves integrate i info pc c l (.ended none) l := by
  refine ⟨⟨h.worker, ?_⟩, by cases pc <;> exact Nat.succ_pos _, fun _ => trivial, rfl⟩
  have hstage := h.handler
  cases pc with
  | malloc | send => exact ⟨.inl hstage.1, hstage.2⟩
  | select | recv => exact ⟨.inr hstage.1, hstage.2⟩

/-- It goes on to another call. -/
theorem goes {l' : Link V} (h : Talks integrate i info (some (.running pc' c)) l')
    (hlt : pc'.left < pc.left) (hlink : l'.left = l.left) :
    HandlerMoves integrate i info pc c l (.running pc' c) l' :=
  ⟨h, hlt, fun hc => by rw [hc]; trivial, hlink⟩

end HandlerMoves

/-- What a handler does is seen at its own end of the connection only. The case `recv` is the one
    with an argument: what is there to receive is the result of the handler's own task
    (`Talks.head`), as nothing else has been sent. -/
theorem workHandler_cases {u : HandlerInfo} {i : Nat} {pc : HandlerPc} {c : Bool} {a : Answer}
    (hfd : 0 ≤ u.socket.toInt ∧ u.socket.toInt < FD_SETSIZE) (ha : a ≠ .sigpipe)
    (htalk : Talks integrate i u.wInfo (some (.running pc c)) (s.links u.socket))
    (ht : workHandler u s i pc c a = some t) :
    ∃ h l, t = (s.setLink u.socket l).setThread i h ∧
      HandlerMoves integrate i u.wInfo pc c (s.links u.socket) h l := by
  have hsame : ∀ h, s.setThread i h = t →
      HandlerMoves integrate i u.wInfo pc c (s.links u.socket) h (s.links u.socket) →
      ∃ h l, t = (s.setLink u.socket l).setThread i h ∧
        HandlerMoves integrate i u.wInfo pc c (s.links u.socket) h l := by
    intro h heq hmoves
    exact ⟨h, s.links u.socket, by rw [setLink_self, heq], hmoves⟩
  have hw := htalk.worker
  have hh := htalk.handler
  have hfails := hsame (.ended none)
  unfold workHandler at ht
  dsimp only at ht
  split at ht
  · exact hsame _ (Option.some.inj ht) (.goes ⟨hw, hh⟩ (by decide) rfl)
  · exact hfails (Option.some.inj ht) (.fails htalk)
  · cases ht
  · split at ht
    · cases ht
    · -- the one place where a task is put into the connection
      refine ⟨_, _, (Option.some.inj ht).symm, .goes ⟨hw, ?_, hh.2⟩ (by decide) rfl⟩
      rw [Lib.Channel.push_sent, hh.1, List.nil_append]
  · exact hfails (Option.some.inj ht) (.fails htalk)
  · exact absurd rfl ha
  · rw [if_neg (by omega)] at ht
    split at ht
    · split at ht
      · exact hsame _ (Option.some.inj ht) (.goes ⟨hw, hh⟩ (by decide) rfl)
      · cases ht
    · exact hfails (Option.some.inj ht) (.fails htalk)
    · exact absurd rfl ha
  · split at ht
    · rename_i v up hpop
      obtain ⟨hsent, hreceived⟩ := Lib.Channel.pop_cases hpop
      refine ⟨_, _, (Option.some.inj ht).symm, ⟨⟨?_, hh.1, ?_⟩, Nat.zero_lt_one,
        fun _ => trivial, rfl⟩⟩
      · show WorkerStage integrate _ _ up.sent
        rw [hsent]
        exact hw
      · rw [hreceived, hh.2, List.nil_append]
    · cases ht
  · exact hfails (Option.some.inj ht) (.fails htalk)
  · exact absurd rfl ha

end Handlers

end CompTech.Network
