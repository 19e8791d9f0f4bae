import CompTech.Lib.Run

/-!
# The rendezvous over the general FIFO

Any number of `FIFO_read` and `FIFO_write` processes come and go. A `FIFO_read` opens the general
FIFO for writing, posts its pid with `transfer_pid_fifo` and keeps the FIFO open until it has its
data; a `FIFO_write` opens it for reading, takes a pid with `get_pid_fifo`, and then feeds the
secret FIFO of that name.

An `open` waits for the other side. It counts as open from its start, and it is released by the
coming of a process of the other side, not by its staying: by the time the call returns that
process may have left. So a `get_pid_fifo` may find the FIFO empty with no process that has it
open for writing. Its `read` then returns 0, which is not the negative value `get_pid_fifo` tests
for, and `pid` is left as it was: uninitialised.

`rendezvous_run` is the law for the runs in which that does not happen, and `stray_pid` says that
where it happens the law can fail at once.

What is kept of the kernel is small: how many processes of either side have the FIFO open, how often
it has been opened for each, and the bytes in it, which are whole pids since each is written with
one call. A process that fails or is killed leaves like one that returns. Nothing else of
`FIFO_read` and `FIFO_write` matters for who gets which pid, and what they do with their secret
FIFOs is in `Feeding`.
-/

namespace CompTech.Fifo

/-- A `pid_t`; the program also keeps it where nothing has been read into it. -/
abbrev Pid := Int

/-! ## The processes -/

/-- Where a `FIFO_read` stands with respect to the general FIFO. -/
inductive ReadPc
  -- in `open`; `seen` is the count of the other side's openings it waits to see exceeded
  | opening (seen : Option Nat)
  -- before `transfer_pid_fifo`
  | posting
  -- its pid is in the FIFO, or somebody has it
  | posted
  -- it has returned, failed or been killed: all its ends are closed
  | left
  deriving DecidableEq, Repr

/-- A `FIFO_read` process. -/
structure Reader where
  secrPid : Pid
  pc : ReadPc
  deriving DecidableEq, Repr

/-- Where a `FIFO_write` stands with respect to the general FIFO. -/
inductive WritePc
  | opening (seen : Option Nat)
  -- before `get_pid_fifo`
  | getting
  -- past `get_pid_fifo`
  | feeding
  | left
  deriving DecidableEq, Repr

/-- A `FIFO_write` process; `secrPid` is what `get_pid_fifo` returned. -/
structure Writer where
  secrPid : Option Pid
  pc : WritePc
  deriving DecidableEq, Repr

/-- The general FIFO and all processes that ever came, in the order of their coming. -/
structure State where
  readers : List Reader
  writers : List Writer
  -- what is in the general FIFO, oldest first
  dflt : List Pid
  -- how often the general FIFO has been opened for reading and for writing
  rdOpens : Nat
  wrOpens : Nat
  -- all pids posted so far
  posts : List Pid
  deriving DecidableEq, Repr

/-- Nobody has come. -/
def start : State := ⟨[], [], [], 0, 0, []⟩

/-- The processes that have the general FIFO open for writing: the ones that read in the end. -/
def State.wrEnds (s : State) : Nat := s.readers.countP fun r => decide (r.pc ≠ .left)

/-- The processes that have it open for reading: the ones that write in the end. -/
def State.rdEnds (s : State) : Nat := s.writers.countP fun w => decide (w.pc ≠ .left)

/-- What is in the FIFO is lost when nobody has it open any more. -/
def State.settle (s : State) : State :=
  if s.wrEnds = 0 ∧ s.rdEnds = 0 then { s with dflt := [] } else s

/-- Only reader `k` changes. -/
def State.setReader (s : State) (k : Nat) (r : Reader) : State :=
  { s with readers := s.readers.set k r }

/-- Only writer `k` changes. -/
def State.setWriter (s : State) (k : Nat) (w : Writer) : State :=
  { s with writers := s.writers.set k w }

/-- An `open` that has noted `seen` openings of the other side may return. -/
def released (seen : Option Nat) (opens : Nat) : Bool := decide (seen ≠ some opens)

/-- The events of the general FIFO, each a call of one process. -/
inductive Act
  -- a `FIFO_read` calls `open (DFLT_FIFO_PATH, O_WRONLY)`
  | readerComes (pid : Pid)
  | readerOpened (k : Nat)
  | readerPosts (k : Nat)
  | readerLeaves (k : Nat)
  -- a `FIFO_write` calls `open (DFLT_FIFO_PATH, O_RDONLY)`
  | writerComes
  | writerOpened (k : Nat)
  -- `junk` is what the uninitialised `pid` holds
  | writerGets (k : Nat) (junk : Pid)
  | writerLeaves (k : Nat)
  deriving DecidableEq, Repr

/-- `transfer_pid_fifo`; without a reading end the signal `SIGPIPE` ends the process. -/
def transferPidFifo (s : State) (k : Nat) (r : Reader) : State :=
  if s.rdEnds = 0 then (s.setReader k { r with pc := .left }).settle
  else { s.setReader k { r with pc := .posted } with
    dflt := s.dflt ++ [r.secrPid], posts := s.posts ++ [r.secrPid] }

/-- `get_pid_fifo`: the `read` takes the oldest pid; on an empty FIFO it waits while some process
    may still write, and returns 0 when there is none. -/
def getPidFifo (s : State) (k : Nat) (w : Writer) (junk : Pid) : Option State :=
  match s.dflt with
  | pid :: dflt => some { s.setWriter k { w with secrPid := some pid, pc := .feeding } with
      dflt := dflt }
  | [] =>
    -- `read` returns 0, which the test for a negative value lets pass
    if s.wrEnds = 0 then some (s.setWriter k { w with secrPid := some junk, pc := .feeding })
    else none

/-- One call. `none` says that it is not the process's next one, or that it waits. -/
def step (s : State) : Act → Option State
  -- an `open` notes how often the other side has opened, if nobody of it is there
  | .readerComes pid =>
    let seen := if s.rdEnds = 0 then some s.rdOpens else none
    some { s with readers := s.readers ++ [⟨pid, .opening seen⟩], wrOpens := s.wrOpens + 1 }
  | .readerOpened k =>
    (s.readers[k]?).bind fun r =>
      match r.pc with
      | .opening seen =>
        if released seen s.rdOpens then some (s.setReader k { r with pc := .posting }) else none
      | _ => none
  | .readerPosts k =>
    (s.readers[k]?).bind fun r =>
      match r.pc with
      | .posting => some (transferPidFifo s k r)
      | _ => none
  | .readerLeaves k =>
    (s.readers[k]?).bind fun r =>
      if r.pc ≠ .left then some (s.setReader k { r with pc := .left }).settle else none
  | .writerComes =>
    let seen := if s.wrEnds = 0 then some s.wrOpens else none
    some { s with writers := s.writers ++ [⟨none, .opening seen⟩], rdOpens := s.rdOpens + 1 }
  | .writerOpened k =>
    (s.writers[k]?).bind fun w =>
      match w.pc with
      | .opening seen =>
        if released seen s.wrOpens then some (s.setWriter k { w with pc := .getting }) else none
      | _ => none
  | .writerGets k junk =>
    (s.writers[k]?).bind fun w =>
      match w.pc with
      | .getting => getPidFifo s k w junk
      | _ => none
  | .writerLeaves k =>
    (s.writers[k]?).bind fun w =>
      if w.pc ≠ .left then some (s.setWriter k { w with pc := .left }).settle else none

/-! ## The law -/

/-- What the writers past `get_pid_fifo` hold, the ones that have left included. -/
def State.held (s : State) : List Pid := s.writers.filterMap (·.secrPid)

/-- Every writer holds a pid that was posted, and no posting is held twice. -/
structure Rendezvous (s : State) : Prop where
  posted : ∀ pid ∈ s.held, pid ∈ s.posts
  once : ∀ pid, s.held.count pid ≤ s.posts.count pid
  /-- where no two readers have posted the same pid, no two writers hold one -/
  apart : s.posts.Nodup → s.held.Nodup

/-- No `get_pid_fifo` finds the FIFO empty. -/
def FindsPid (s : State) : Act → Prop
  | .writerGets _ _ => s.dflt ≠ []
  | .readerComes _ | .readerOpened _ | .readerPosts _ | .readerLeaves _ => True
  | .writerComes | .writerOpened _ | .writerLeaves _ => True

instance (s : State) : (act : Act) → Decidable (FindsPid s act)
  | .writerGets _ _ => inferInstanceAs (Decidable (s.dflt ≠ []))
  | .readerComes _ | .readerOpened _ | .readerPosts _ | .readerLeaves _ =>
    inferInstanceAs (Decidable True)
  | .writerComes | .writerOpened _ | .writerLeaves _ => inferInstanceAs (Decidable True)

/-! ## One step -/

/-- Every posting is held, still in the FIFO, or lost. -/
def Accounted (s : State) : Prop :=
  ∀ pid, s.held.count pid + s.dflt.count pid ≤ s.posts.count pid

section

variable {s t : State} {k : Nat} {r : Reader} {w : Writer}

theorem Accounted.rendezvous (h : Accounted s) : Rendezvous s := by
  have honce : ∀ pid, s.held.count pid ≤ s.posts.count pid := fun pid =>
    (Nat.le_add_right _ _).trans (h pid)
  refine ⟨fun pid hpid => ?_, honce, fun hposts => ?_⟩
  · exact List.count_pos_iff.mp ((List.count_pos_iff.mpr hpid).trans_le (honce pid))
  · exact List.nodup_iff_count_le_one.mpr fun pid =>
      (honce pid).trans (List.nodup_iff_count_le_one.mp hposts pid)

theorem Accounted.settle (h : Accounted s) : Accounted s.settle := by
  unfold State.settle
  split
  · intro pid
    have hpid := h pid
    show s.held.count pid + ([] : List Pid).count pid ≤ s.posts.count pid
    rw [List.count_nil]
    omega
  · exact h

theorem count_held (s : State) (pid : Pid) :
    s.held.count pid = s.writers.countP fun w => decide (w.secrPid = some pid) := by
  rw [State.held, List.count_filterMap]
  refine List.countP_congr fun w _ => ?_
  simp

/-- One writer changes what it holds. -/
theorem count_setWriter (hw : s.writers[k]? = some w) (w' : Writer) (pid : Pid) :
    (s.setWriter k w').held.count pid + (if w.secrPid = some pid then 1 else 0) =
      s.held.count pid + if w'.secrPid = some pid then 1 else 0 := by
  obtain ⟨hk, hget⟩ := List.getElem?_eq_some_iff.mp hw
  have hle := List.boole_getElem_le_countP (p := fun w : Writer => decide (w.secrPid = some pid)) hk
  have hset : (s.setWriter k w').held.count pid =
      (s.writers.set k w').countP fun w => decide (w.secrPid = some pid) := count_held _ pid
  rw [hget] at hle
  rw [hset, count_held, List.countP_set hk, hget]
  simp only [decide_eq_true_eq] at hle ⊢
  omega

theorem Accounted.setReader (h : Accounted s) (k : Nat) (r : Reader) :
    Accounted (s.setReader k r) := h

/-- A writer that goes on or leaves keeps the pid it has. -/
theorem Accounted.setWriter (h : Accounted s) (hw : s.writers[k]? = some w) (pc : WritePc) :
    Accounted (s.setWriter k { w with pc := pc }) := by
  intro pid
  have hcount := count_setWriter hw { w with pc := pc } pid
  have hpid := h pid
  show (s.setWriter k { w with pc := pc }).held.count pid + s.dflt.count pid ≤ s.posts.count pid
  dsimp only at hcount
  omega

/-- `transfer_pid_fifo`: one more posting, in the FIFO. -/
theorem Accounted.transferPidFifo (h : Accounted s) : Accounted (transferPidFifo s k r) := by
  unfold Fifo.transferPidFifo
  split
  · exact (h.setReader k _).settle
  · intro pid
    have hpid := h pid
    show s.held.count pid + (s.dflt ++ [r.secrPid]).count pid ≤
      (s.posts ++ [r.secrPid]).count pid
    rw [List.count_append, List.count_append]
    omega

/-- `get_pid_fifo`, where it finds a pid: one less in the FIFO, one more held. -/
theorem Accounted.getPidFifo {junk : Pid} (h : Accounted s) (hw : s.writers[k]? = some w)
    (hfinds : s.dflt ≠ []) (ht : getPidFifo s k w junk = some t) : Accounted t := by
  unfold Fifo.getPidFifo at ht
  split at ht
  · rename_i pid dflt hdflt
    cases ht
    intro pid'
    have hcount := count_setWriter hw { w with secrPid := some pid, pc := .feeding } pid'
    have hpid := h pid'
    rw [hdflt, List.count_cons] at hpid
    show (s.setWriter k _).held.count pid' + dflt.count pid' ≤ s.posts.count pid'
    simp only [Option.some.injEq, beq_iff_eq] at hcount hpid
    omega
  · rename_i hdflt
    exact absurd hdflt hfinds

/-- Every call but a stray `get_pid_fifo` keeps the account. -/
theorem Accounted.step {act : Act} (h : Accounted s) (hfinds : FindsPid s act)
    (ht : Fifo.step s act = some t) : Accounted t := by
  cases act with
  | readerComes pid =>
    cases ht
    exact h
  | readerOpened k =>
    obtain ⟨r, -, ht⟩ := Option.bind_eq_some_iff.mp ht
    split at ht
    · split at ht
      · cases ht
        exact h.setReader k _
      · cases ht
    · cases ht
  | readerPosts k =>
    obtain ⟨r, -, ht⟩ := Option.bind_eq_some_iff.mp ht
    split at ht
    · cases ht
      exact h.transferPidFifo
    · cases ht
  | readerLeaves k =>
    obtain ⟨r, -, ht⟩ := Option.bind_eq_some_iff.mp ht
    split at ht
    · cases ht
      exact (h.setReader k _).settle
    · cases ht
  | writerComes =>
    cases ht
    intro pid
    have hpid := h pid
    simpa [State.held] using hpid
  | writerOpened k =>
    obtain ⟨w, hw, ht⟩ := Option.bind_eq_some_iff.mp ht
    split at ht
    · split at ht
      · cases ht
        exact h.setWriter hw _
      · cases ht
    · cases ht
  | writerGets k junk =>
    obtain ⟨w, hw, ht⟩ := Option.bind_eq_some_iff.mp ht
    split at ht
    · exact h.getPidFifo hw hfinds ht
    · cases ht
  | writerLeaves k =>
    obtain ⟨w, hw, ht⟩ := Option.bind_eq_some_iff.mp ht
    split at ht
    · cases ht
      exact (h.setWriter hw _).settle
    · cases ht

/-! ## Whole runs -/

/-- **The rendezvous**, in every run in which no `get_pid_fifo` finds the FIFO empty. The condition
    is exact: `stray_pid` says that from a `get_pid_fifo` on an empty FIFO on, the writer has a pid
    that nobody has posted. -/
theorem rendezvous_run {acts : List Act} (hr : Lib.Run Fifo.step FindsPid start acts s) :
    Rendezvous s := by
  have h : Accounted s := by
    refine hr.invariant (fun pid => ?_) fun s act t hs hfinds ht => hs.step hfinds ht
    exact Nat.le_refl _
  exact h.rendezvous

/-- **The condition is exact**: after a `get_pid_fifo` that finds the FIFO empty the writer goes
    on with whatever `pid` happens to hold. -/
theorem stray_pid {junk : Pid} (hw : s.writers[k]? = some w) (hempty : s.dflt = [])
    (ht : getPidFifo s k w junk = some t) (hjunk : junk ∉ s.posts) : ¬Rendezvous t := by
  intro hall
  unfold getPidFifo at ht
  rw [hempty] at ht
  dsimp only at ht
  split at ht
  · cases ht
    have hk := (List.getElem?_eq_some_iff.mp hw).1
    have hmem := List.mem_of_getElem?
      (List.getElem?_set_self (a := (⟨some junk, .feeding⟩ : Writer)) hk)
    exact hjunk (hall.posted junk (List.mem_filterMap.mpr ⟨_, hmem, rfl⟩))
  · cases ht

end

/-- One of each: the writer takes the pid that the reader has posted. -/
theorem rendezvous_meeting :
    Rendezvous ⟨[⟨11, .posted⟩], [⟨some 11, .feeding⟩], [], 1, 1, [11]⟩ := by
  have hrun : Lib.exec step FindsPid [.writerComes, .readerComes 11, .readerOpened 0,
      .writerOpened 0, .readerPosts 0, .writerGets 0 0] start =
        some ⟨[⟨11, .posted⟩], [⟨some 11, .feeding⟩], [], 1, 1, [11]⟩ := by decide
  exact rendezvous_run (.of_exec hrun)

/-- One reader releases two writers; the second finds the FIFO empty after the reader has left,
    and takes the 7 that its `pid` holds. -/
theorem rendezvous_fails : ¬∀ (acts : List Act) (s : State),
    Lib.Run step Lib.Always start acts s → Rendezvous s := by
  intro hall
  have hrun : Lib.exec step Lib.Always [.writerComes, .writerComes, .readerComes 11,
      .readerOpened 0, .writerOpened 0, .writerOpened 1, .readerPosts 0, .writerGets 0 7,
      .readerLeaves 0, .writerGets 1 7] start =
        some ⟨[⟨11, .left⟩], [⟨some 11, .feeding⟩, ⟨some 7, .feeding⟩], [], 2, 1, [11]⟩ := by
    decide
  exact absurd ((hall _ _ (.of_exec hrun)).posted 7 (by decide)) (by decide)

end CompTech.Fifo
