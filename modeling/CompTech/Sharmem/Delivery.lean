import CompTech.Sharmem.Transfer

/-!
# What the readers put out

In every run of clean steps the output of each reader is a prefix of one file
(`faithful_of_run`); a death that abandons a token is what it takes to break that
(`repeated_block`: a block that is put out twice).

With one writer and one reader no death can abandon a token to anybody, so every run is one of
clean steps; and there the reader has the whole file once the writer has left its loop.

The second half is about the pair. `Delivered` says what the writer knows at each of its places:
behind a successful check all that it had read is put out, for a check that succeeds has found the
reader behind its `v_empty`. So a writer that reads 0 bytes then has had the whole file put out
already, and that is what is left when it leaves its loop.
-/

namespace CompTech.Sharmem

open Lib

variable {s t : State} {v v' : SEM → Nat} {i j : Nat} {w w' : Writer} {r r' : Reader}
  {files : List (List Byte)} {n len : Nat} {data : List Byte} {es : List Event} {e : Event}

/-! ## Any number of processes

Three invariants are put together here, of the counters, of the bytes and of the files. The second
needs the first, and neither needs the third, which only says whose files they are. -/

/-- What one writer reads stays what it reads. -/
theorem Steps.files_eq (hs : Steps s e t) : t.files = s.files := by
  have hclear : ∀ sem : SEM, (s.writers.map (·.clear sem)).map (·.file) = s.files := by
    intro sem
    rw [List.map_map]
    rfl
  cases hs with
  | @writerMove i k w _ hw hrun hm =>
    cases hm with
    | semop => exact files_set hw rfl rfl
    | @setval v =>
      have hws :
          ((s.setvalAll v .full 0).setWriter i { w.clear .full with pc := .syncRead }).writers =
          (s.clearAll .full).writers.set i { w.clear .full with pc := .syncRead } := rfl
      have hget : (s.clearAll .full).writers[i]? = some (w.clear .full) := by
        rw [State.clearAll, List.getElem?_map, hw, Option.map_some]
      exact (files_set hget hws rfl).trans (hclear .full)
    | quiet hl => exact files_set hw rfl hl.kept.2.2.2
    | fail => exact files_set hw rfl rfl
    | remove => exact files_set hw rfl rfl
  | writerErr hw => exact files_set hw rfl rfl
  | writerExit hw => exact files_set hw rfl rfl
  | readerMove hr hrun hm =>
    cases hm with
    | setval => exact hclear .empty
    | _ => rfl
  | readerErr =>
    unfold State.failReader
    split <;> rfl
  | readerExit => rfl

/-- Nobody has read or put out anything. -/
theorem Transfer.start (files : List (List Byte)) (n len : Nat) (data : List Byte) :
    Transfer (State.start files n len data) := by
  have hw : ∀ w ∈ (State.start files n len data).writers, ∃ f, w = Writer.start f := by
    intro w hmem
    obtain ⟨f, -, rfl⟩ := List.mem_map.mp hmem
    exact ⟨f, rfl⟩
  have hr : ∀ r ∈ (State.start files n len data).readers, r = Reader.start :=
    fun r hmem => List.eq_of_mem_replicate hmem
  constructor
  · intro w hwm _ _ hc
    obtain ⟨f, rfl⟩ := hw w hwm
    cases hc
  · intro r hrm
    rw [hr r hrm]
    exact .inl rfl
  · intro w hwm _
    obtain ⟨f, rfl⟩ := hw w hwm
    rfl
  · intro r hrm _
    rw [hr r hrm]
    rfl
  · intro r hrm _ hpc
    rw [hr r hrm] at hpc
    rcases hpc with hpc | hpc <;> cases hpc
  · intro r hrm _ hpc
    rw [hr r hrm] at hpc
    cases hpc
  · intro _ _ w hwm _
    obtain ⟨f, rfl⟩ := hw w hwm
    exact ⟨fun hc => Bool.noConfusion hc, fun hc => WriterPc.noConfusion hc⟩
  · intro _ _ _ w hwm _ _ hp
    obtain ⟨f, rfl⟩ := hw w hwm
    cases hp

/-- What holds of the counters, of the page and of the files in a run of clean steps. -/
structure State.CleanTransfer (files : List (List Byte)) (s : State) : Prop where
  sound : s.Sound
  transfer : Transfer s
  files : s.files = files

theorem State.CleanTransfer.start (files : List (List Byte)) (n len : Nat) (data : List Byte) :
    (State.start files n len data).CleanTransfer files where
  sound := .start files n len data
  transfer := .start files n len data
  files := by
    simp only [State.files, State.start, List.map_map]
    exact List.map_id _

theorem State.CleanTransfer.step (h : s.CleanTransfer files) (hc : Clean s e) (hs : Steps s e t) :
    t.CleanTransfer files where
  sound := h.sound.step hc hs
  transfer := h.transfer.step h.sound hc hs
  files := hs.files_eq.trans h.files

theorem cleanTransfer_of_run (h : Run State.step Clean (State.start files n len data) es s) :
    s.CleanTransfer files :=
  h.invariant (.start files n len data) fun _ _ _ hclean hc hst => hclean.step hc (step_steps hst)

/-- **One reader, one file.** In a run whose deaths are clean, whatever a reader has put out is a
    prefix of what one writer reads. No two files are mixed, however many processes come and go: the
    prefix is of one file all along. -/
theorem faithful_of_run (h : Run State.step Clean (State.start files n len data) es s) :
    ∀ r ∈ s.readers, r.out = [] ∨ ∃ f ∈ files, r.out <+: f := by
  obtain ⟨-, htransfer, hfiles⟩ := cleanTransfer_of_run h
  rw [← hfiles]
  exact htransfer.out

/-- `k` calls of writer `i`. -/
def writes (i k : Nat) : List Event := List.replicate k (.writer i (.run 0))

/-- `k` calls of reader `j`. -/
def reads (j k : Nat) : List Event := List.replicate k (.reader j (.run 0))

/-- Writer 0 is killed before it has posted; writer 1 transfers its block. -/
def cleanRun : List Event :=
  writes 0 3 ++ [.writer 0 .kill] ++ reads 0 4 ++ writes 1 5 ++ reads 0 1 ++ writes 1 3 ++
    [.writer 1 (.run 1)] ++ writes 1 3 ++ reads 0 4

/-- There the reader has put out the file of writer 1, and the theorem says so. -/
theorem faithful_of_run_cleanRun : ∃ s,
    Run State.step Clean (State.start [[1], [2]] 1 0 []) cleanRun s ∧
      ∃ r ∈ s.readers, r.out = [2] ∧ (r.out = [] ∨ ∃ f ∈ [[1], [2]], r.out <+: f) := by
  have hexec : (exec State.step Clean cleanRun (State.start [[1], [2]] 1 0 [])).any
      (fun s => s.readers.any (·.out == [2])) = true := by
    decide
  obtain ⟨s, hrun, hany⟩ := Run.exists_of_exec hexec
  obtain ⟨r, hr, hout⟩ := List.any_eq_true.mp hany
  exact ⟨s, hrun, r, hr, beq_iff_eq.mp hout, faithful_of_run hrun r hr⟩

/-- Reader 0 and writer 0 are killed with their tokens out, reader 1 and writer 1 come next. -/
def abandonedRun : List Event :=
  reads 0 4 ++ [.reader 0 .kill] ++ reads 1 4 ++ writes 0 5 ++ [.writer 0 .kill] ++ writes 1 2 ++
    reads 1 2 ++ writes 1 6 ++ [.writer 1 (.run 1), .writer 1 (.run 0), .writer 1 (.run 0)] ++
    reads 1 3 ++ writes 1 1 ++ reads 1 5

/-- The block 1 is put out twice, and no file begins like that. -/
theorem repeated_block : ¬ ∀ (files : List (List Byte)) (n len : Nat) (data : List Byte)
    (es : List Event) (s : State), Run State.step Always (State.start files n len data) es s →
      ∀ r ∈ s.readers, r.out = [] ∨ ∃ f ∈ files, r.out <+: f := by
  intro hall
  have hexec : (exec State.step Always abandonedRun (State.start [[1], [1]] 2 0 [])).any
      (fun s => s.readers.any (·.out == [1, 1])) = true := by
    decide
  obtain ⟨s, hrun, hany⟩ := Run.exists_of_exec hexec
  obtain ⟨r, hr, hout⟩ := List.any_eq_true.mp hany
  have hbad := hall _ _ _ _ _ _ hrun r hr
  rw [beq_iff_eq.mp hout] at hbad
  revert hbad
  decide

/-! ## One writer and one reader

A death can abandon a token only to somebody who comes later, and here nobody does. -/

/-- The writer is behind its loop. -/
def WriterPc.leftLoop : WriterPc → Bool
  | .closeFile | .endWr | .unlinkShm | .deleteShm | .deleteSem | .returned => true
  | _ => false

/-- The writer has read and not posted. -/
def WriterPc.filled : WriterPc → Bool
  | .memcpy | .storeNumSymb | .vFull => true
  | _ => false

/-- Past a check of the writer the reader has put out all that is read. -/
structure Delivered (w : Writer) (r : Reader) : Prop where
  /-- behind its check, before it reads the next block, … -/
  read : w.task.live = true → w.pc = .read → r.out = w.file.take w.pos
  /-- … behind the `read` that has found the end, … -/
  last : w.task.live = true → w.pc.filled = true → w.numSymb ≤ 0 → r.out = w.file
  /-- … and behind the loop -/
  left : w.pc.leftLoop = true → r.out = w.file

/-- Only one of each kind, and between them what is delivered. -/
def State.Pair (s : State) : Prop :=
  ∃ w r, s.writers = [w] ∧ s.readers = [r] ∧ Delivered w r

/-- With one process on each side there is nobody to come, so every step is clean. -/
theorem State.Pair.clean (h : s.Pair) (e : Event) : Clean s e := by
  obtain ⟨w, r, hw, hr, -⟩ := h
  cases e with
  | writer i a =>
    refine Bool.eq_false_iff.mpr fun hab => ?_
    simp only [State.abandons, hw, List.any_cons, List.any_nil, Bool.or_false,
      Bool.and_eq_true, Writer.toCome, decide_eq_true_eq] at hab
    obtain ⟨⟨⟨-, hpair⟩, -⟩, -, hpc⟩ := hab
    cases i with
    | zero =>
      change w.pc.phase.paired = true at hpair
      rw [hpc] at hpair
      cases hpair
    | succ i => cases hpair
  | reader j a =>
    refine Bool.eq_false_iff.mpr fun hab => ?_
    simp only [State.abandons, hr, List.any_cons, List.any_nil, Bool.or_false,
      Bool.and_eq_true, Reader.toCome, decide_eq_true_eq] at hab
    obtain ⟨⟨⟨-, hpair⟩, -⟩, -, hpc⟩ := hab
    cases j with
    | zero =>
      change r.pc.phase.paired = true at hpair
      rw [hpc] at hpair
      cases hpair
    | succ j => cases hpair

/-- A check of the writer that succeeds finds everything it has read put out. -/
theorem Transfer.check_delivered (h : Transfer s) (hsound : s.Sound) (hw : s.writers = [w])
    (hr : s.readers = [r]) (hrun : w.task.life = .running) (hpc : w.pc = .checkNumProc)
    (hv : s.sems = some v) (htwo : 2 ≤ v .numProc) : r.out = w.file.take w.pos := by
  obtain ⟨hacc, hsafe⟩ := hsound v hv
  have hwm : w ∈ s.writers := hw ▸ List.mem_singleton_self w
  have hrm : r ∈ s.readers := hr ▸ List.mem_singleton_self r
  have hpw : w.paired = true := by
    rw [Writer.paired_running hrun, hpc]
    rfl
  have hcw : w.critical = true := by
    rw [Writer.critical, Writer.phase_running hrun, hpc]
    rfl
  have hpr : r.paired = true := by
    obtain ⟨r₀, hr₀, hconn⟩ := (exists_connected hacc htwo).2
    rw [hr, List.mem_singleton] at hr₀
    subst hr₀
    obtain ⟨q, hq, hc⟩ := (Option.any_eq_true _ _).mp hconn
    have hany : r₀.phase.any Phase.paired = true := by
      rw [hq, Option.any_some]
      exact Phase.paired_of_connected hc
    rw [Reader.paired, hany, Bool.true_and, Bool.not_eq_true', Bool.and_eq_false_iff]
    by_cases hwrite : r₀.pc = .write
    · -- a reader in its `write` is not there while the writer has the slot
      have hqpc : q = r₀.pc.phase := Task.phase_eq hq (by rintro rfl; cases hc)
      have hcr : r₀.critical = true := by
        rw [Reader.critical, hq, hqpc, hwrite]
        rfl
      exact (h.excl w hwm r₀ hrm hcw hcr).elim
    · exact .inr (decide_eq_false hwrite)
  have hg : Guarded (s.ctl v) := hacc.acct.guarded htwo
  have hone := slots_of_paired hsound hv hg hwm hrm hpw hpr
  have hold := h.held v hv hg w hwm r hrm hpw hpr
  rwa [Held, pending_nil hone (by rw [hpc]; rfl) (by rw [hpc]; rfl) (by rw [hpc]; decide),
    List.append_nil] at hold

/-- A writer that stands elsewhere promises nothing. -/
theorem Delivered.of_pc (hread : w.pc ≠ .read) (hfilled : w.pc.filled = false)
    (hleft : w.pc.leftLoop = false) : Delivered w r where
  read _ hpc := absurd hpc hread
  last _ hpc := by
    rw [hfilled] at hpc
    cases hpc
  left hpc := by
    rw [hleft] at hpc
    cases hpc

/-- An operation of the writer: its check is where it learns something (`check_delivered`), its
    `v_full` is where it leaves the loop with it. -/
theorem Delivered.writerSemop (h : Delivered w r) (htransfer : Transfer s) (hsound : s.Sound)
    (hw : s.writers = [w]) (hr : s.readers = [r]) (hrun : w.task.life = .running)
    {ops : List (Sembuf SEM)} {next : WriterPc} {adj : SEM → Int} (hop : WriterOp w.pc ops next)
    (hn : w.pc = .vFull → (next = .pEmpty ↔ 0 < w.numSymb)) (hv : s.sems = some v)
    (hd : semop ops v w.task.adj = .done v' adj) :
    Delivered { w with task := { w.task with adj := adj, asleep := false }, pc := next } r := by
  generalize hpc : w.pc = pc at hop
  cases hop with
  | check =>
    have hnum : 0 ≤ (v .numProc : Int) + -2 := (semop_done_head hd).2
    have hout := htransfer.check_delivered hsound hw hr hrun hpc hv (by omega)
    exact ⟨fun _ _ => hout, fun _ hc => Bool.noConfusion hc, fun hc => Bool.noConfusion hc⟩
  | vFullLast =>
    have hlast : w.numSymb ≤ 0 :=
      Int.not_lt.mp fun hpos => WriterPc.noConfusion ((hn hpc).mpr hpos)
    have hout := h.last (Task.live_running hrun) (by rw [hpc]; rfl) hlast
    exact ⟨fun _ hc => WriterPc.noConfusion hc, fun _ hc => Bool.noConfusion hc, fun _ => hout⟩
  | endWr =>
    have hout := h.left (by rw [hpc]; rfl)
    exact ⟨fun _ hc => WriterPc.noConfusion hc, fun _ hc => Bool.noConfusion hc, fun _ => hout⟩
  | _ => exact .of_pc WriterPc.noConfusion rfl rfl

/-- A `read` that returns 0 has come to the end of the file; all other steps leave the writer with
    what it knows. -/
theorem Delivered.writerLocal (h : Delivered w r) (hrun : w.task.life = .running) {shmLen : Nat}
    {shmData : List Byte} (hl : WriterLocal s w w' shmLen shmData) : Delivered w' r := by
  have hlive := Task.live_running hrun
  cases hl with
  | sleep => exact ⟨fun _ => h.read hlive, fun _ => h.last hlive, h.left⟩
  | openFile => exact .of_pc WriterPc.noConfusion rfl rfl
  | read k hpc hk heof =>
    refine ⟨fun _ hc => WriterPc.noConfusion hc, fun _ _ hz => ?_, fun hc => Bool.noConfusion hc⟩
    have hzero : k = 0 := by
      change (k : Int) ≤ 0 at hz
      omega
    -- the file is read to its end
    rw [h.read hlive hpc, heof hzero, List.take_length]
  | memcpy hpc =>
    exact ⟨fun _ hc => WriterPc.noConfusion hc, fun _ _ => h.last hlive (by rw [hpc]; rfl),
      fun hc => Bool.noConfusion hc⟩
  | storeNumSymb hpc =>
    exact ⟨fun _ hc => WriterPc.noConfusion hc, fun _ _ => h.last hlive (by rw [hpc]; rfl),
      fun hc => Bool.noConfusion hc⟩
  | closeFile hpc | unlinkShm hpc | deleteShm hpc =>
    exact ⟨fun _ hc => WriterPc.noConfusion hc, fun _ hc => Bool.noConfusion hc,
      fun _ => h.left (by rw [hpc]; rfl)⟩

/-- What more the reader puts out is nothing new. -/
theorem Delivered.readerOut (h : Delivered w r) (hexcl : s.Excl) (hw : s.writers = [w])
    (hr : s.readers = [r]) (hfaithful : r'.out = [] ∨ r'.out <+: w.file)
    (hout : r'.out = r.out ∨ r.out <+: r'.out ∧ r.critical = true) : Delivered w r' := by
  rcases hout with hsame | ⟨hmore, hcrit⟩
  · refine ⟨?_, ?_, ?_⟩ <;> rw [hsame]
    · exact h.read
    · exact h.last
    · exact h.left
  · have hidle : w.task.live = true → w.pc.phase.critical = true → False := by
      intro hlive hc
      exact hexcl w (hw ▸ List.mem_singleton_self w) r (hr ▸ List.mem_singleton_self r)
        (Writer.critical_of_live hlive hc) hcrit
    refine ⟨fun hlive hpc => (hidle hlive (by rw [hpc]; rfl)).elim, fun hlive hpc => ?_,
      fun hpc => ?_⟩
    · refine (hidle hlive ?_).elim
      revert hpc
      cases w.pc <;> intro hpc <;> first | rfl | cases hpc
    · have hall := h.left hpc
      rw [hall] at hmore
      rcases hfaithful with hnil | hpre
      · rw [hnil] at hmore ⊢
        exact (List.prefix_nil.mp hmore).symm
      · exact (hpre.eq_of_length (Nat.le_antisymm hpre.length_le hmore.length_le))

/-- **One step of the pair.** -/
theorem State.Pair.step (h : s.Pair) (hclean : s.CleanTransfer files)
    (hclean' : t.CleanTransfer files) (hs : Steps s e t) : t.Pair := by
  obtain ⟨w, r, hws, hrs, hdel⟩ := h
  have hset : ∀ {w'}, s.writers.set 0 w' = [w'] := by
    intro w'
    rw [hws]
    rfl
  have hset' : ∀ {r'}, s.readers.set 0 r' = [r'] := by
    intro r'
    rw [hrs]
    rfl
  have hfaithful : ∀ {r'}, t.readers = [r'] → t.writers = s.writers →
      r'.out = [] ∨ r'.out <+: w.file := by
    intro r' hr' hw'
    have hout := hclean'.transfer.out r' (hr' ▸ List.mem_singleton_self r')
    rw [State.files, hw', hws] at hout
    simpa using hout
  cases hs with
  | @writerMove i k w₀ _ hw hrun hm =>
    obtain ⟨rfl, rfl⟩ := eq_of_getElem?_single hws hw
    cases hm with
    | semop hop hn hv hd =>
      exact ⟨_, r, hset, hrs,
        hdel.writerSemop hclean.transfer hclean.sound hws hrs hrun hop hn hv hd⟩
    | @setval v hpc hv =>
      refine ⟨{ w₀.clear .full with pc := .syncRead }, r.clear .full, ?_, ?_,
        .of_pc WriterPc.noConfusion rfl rfl⟩
      · change (s.writers.map _).set 0 _ = _
        rw [hws]
        rfl
      · change s.readers.map _ = _
        rw [hrs]
        rfl
    | quiet hl => exact ⟨_, r, hset, hrs, hdel.writerLocal hrun hl⟩
    | fail =>
      have hlive := Task.live_running hrun
      exact ⟨_, r, hset, hrs, fun _ => hdel.read hlive, fun _ => hdel.last hlive, hdel.left⟩
    | remove hpc =>
      refine ⟨_, r, hset, hrs, ?_⟩
      exact ⟨fun _ hc => WriterPc.noConfusion hc, fun _ hc => Bool.noConfusion hc,
        fun _ => hdel.left (by rw [hpc]; rfl)⟩
  | writerErr hw hrun =>
    obtain ⟨rfl, rfl⟩ := eq_of_getElem?_single hws hw
    have hlive := Task.live_running hrun
    exact ⟨_, r, hset, hrs, fun _ => hdel.read hlive, fun _ => hdel.last hlive, hdel.left⟩
  | writerExit hw =>
    obtain ⟨rfl, rfl⟩ := eq_of_getElem?_single hws hw
    exact ⟨_, r, hset, hrs, fun hl => Bool.noConfusion hl, fun hl => Bool.noConfusion hl, hdel.left⟩
  | @readerMove j k r₀ _ hr hrun hm =>
    obtain ⟨rfl, rfl⟩ := eq_of_getElem?_single hrs hr
    have hexcl := hclean.transfer.excl
    cases hm with
    | semop hop hn hv hd =>
      exact ⟨w, _, hws, hset', hdel.readerOut hexcl hws hrs (hfaithful hset' rfl) (.inl rfl)⟩
    | @setval v hpc hv =>
      refine ⟨w.clear .empty, { r₀.clear .empty with pc := .syncWrite }, ?_, ?_, ?_⟩
      · change s.writers.map _ = _
        rw [hws]
        rfl
      · change (s.readers.map _).set 0 _ = _
        rw [hrs]
        rfl
      · exact ⟨hdel.read, hdel.last, hdel.left⟩
    | quiet hl =>
      refine ⟨w, _, hws, hset', hdel.readerOut hexcl hws hrs (hfaithful hset' rfl) ?_⟩
      cases hl with
      | write hpc =>
        exact .inr ⟨List.prefix_append _ _, Reader.critical_of_running hrun (by rw [hpc]; rfl)⟩
      | _ => exact .inl rfl
    | fail =>
      exact ⟨w, r₀.fail, hws, hset',
        hdel.readerOut hexcl hws hrs (hfaithful hset' rfl) (.inl rfl)⟩
    | endGone =>
      exact ⟨w, _, hws, hset', hdel.readerOut hexcl hws hrs (hfaithful hset' rfl) (.inl rfl)⟩
  | @readerErr j k r₀ hr hrun =>
    obtain ⟨rfl, rfl⟩ := eq_of_getElem?_single hrs hr
    have hexcl := hclean.transfer.excl
    unfold State.failReader at hfaithful ⊢
    by_cases hpc : r₀.pc = .write
    · rw [if_pos hpc] at hfaithful ⊢
      refine ⟨w, _, hws, hset', hdel.readerOut hexcl hws hrs (hfaithful hset' rfl) ?_⟩
      exact .inr ⟨List.prefix_append _ _, Reader.critical_of_running hrun (by rw [hpc]; rfl)⟩
    · rw [if_neg hpc] at hfaithful ⊢
      exact ⟨w, r₀.fail, hws, hset',
        hdel.readerOut hexcl hws hrs (hfaithful hset' rfl) (.inl rfl)⟩
  | readerExit hr =>
    obtain ⟨rfl, rfl⟩ := eq_of_getElem?_single hrs hr
    exact ⟨w, _, hws, hset',
      hdel.readerOut hclean.transfer.excl hws hrs (hfaithful hset' rfl) (.inl rfl)⟩

/-- The pair, and the invariant of the clean runs for its one file. -/
def State.PairTransfer (file : List Byte) (s : State) : Prop := s.Pair ∧ s.CleanTransfer [file]

theorem pairTransfer_of_run {file : List Byte}
    (h : Run State.step Always (State.start [file] 1 len data) es s) : s.PairTransfer file := by
  refine h.invariant ?_ ?_
  · exact ⟨⟨.start file, .start, rfl, rfl, .of_pc WriterPc.noConfusion rfl rfl⟩,
      .start [file] 1 len data⟩
  · intro s e t ⟨hpair, hclean⟩ _ hst
    have hs := step_steps hst
    have hclean' := hclean.step (hpair.clean e) hs
    exact ⟨hpair.step hclean hclean' hs, hclean'⟩

/-- **One writer, one reader.** Whatever the two do and whenever either fails or dies: what the
    reader has put out is a prefix of the file, the two are never between taking and giving at once,
    and a writer that has left its loop has had the whole file put out. A death is no exception with
    one process on each side: the token that it may leave behind has nobody to take it. -/
theorem single_transfer {file : List Byte}
    (h : Run State.step Always (State.start [file] 1 len data) es s) :
    (∀ r ∈ s.readers, r.out <+: file) ∧
    (∀ w ∈ s.writers, ∀ r ∈ s.readers,
      ¬(w.task.live = true ∧ w.pc.phase.critical = true ∧ r.task.live = true ∧
        r.pc.phase.critical = true)) ∧
    ∀ w ∈ s.writers, ∀ r ∈ s.readers, w.pc.leftLoop = true → r.out = file := by
  obtain ⟨⟨w₀, r₀, hws, hrs, hdel⟩, -, htransfer, hfiles⟩ := pairTransfer_of_run h
  have hfile : w₀.file = file := by
    rw [State.files, hws] at hfiles
    exact List.head_eq_of_cons_eq hfiles
  refine ⟨fun r hr => ?_, fun w hw r hr hboth => ?_, fun w hw r hr hleft => ?_⟩
  · rcases htransfer.out r hr with hnil | ⟨f, hf, hpre⟩
    · rw [hnil]
      exact List.nil_prefix
    · rw [hfiles, List.mem_singleton] at hf
      rwa [hf] at hpre
  · obtain ⟨hwl, hwc, hrl, hrc⟩ := hboth
    exact htransfer.excl w hw r hr (Writer.critical_of_live hwl hwc)
      (Reader.critical_of_live hrl hrc)
  · rw [hws, List.mem_singleton] at hw
    rw [hrs, List.mem_singleton] at hr
    subst hw hr
    exact (hdel.left hleft).trans hfile

/-- A file of one byte, read in one block and an empty one. -/
def wholeRun : List Event :=
  reads 0 4 ++ writes 0 5 ++ reads 0 1 ++ writes 0 3 ++ [.writer 0 (.run 1)] ++ writes 0 3 ++
    reads 0 5 ++ writes 0 6 ++ reads 0 1 ++ writes 0 1

/-- At its end the writer has left the loop, and the theorem gives the file. -/
theorem single_transfer_whole : ∃ s, Run State.step Always (State.start [[7]] 1 0 []) wholeRun s ∧
    ∃ w ∈ s.writers, ∃ r ∈ s.readers, w.pc.leftLoop = true ∧ r.out = [7] := by
  have hexec : (exec State.step Always wholeRun (State.start [[7]] 1 0 [])).any
      (fun s => s.writers.any (·.pc.leftLoop) && s.readers.any fun _ => true) = true := by
    decide
  obtain ⟨s, hrun, hany⟩ := Run.exists_of_exec hexec
  obtain ⟨hw, hr⟩ := Bool.and_eq_true_iff.mp hany
  obtain ⟨w, hwm, hleft⟩ := List.any_eq_true.mp hw
  obtain ⟨r, hrm, -⟩ := List.any_eq_true.mp hr
  exact ⟨s, hrun, w, hwm, r, hrm, hleft, (single_transfer hrun).2.2 w hwm r hrm hleft⟩

end CompTech.Sharmem
