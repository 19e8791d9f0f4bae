import CompTech.Sharmem.Lockstep

/-!
# The transfer comes to its end

Two processes in step are never both stuck (`InStep.progress`), and what they still have to do
gets less with every step (`InStep.work_lt`): each block costs a bounded number of calls, and the
file has finitely many blocks. So the two return, after a number of steps that only depends on
the length of the file.

`State.work` is the number that gets less. Each call costs two, since it may put the process to
sleep first; a byte that is not read yet pays 32, which is more than a whole round of both programs;
and a block that is under way has been paid for by its bytes and pays in turn for the round of the
reader. So the bound on the length of a run is `State.work` at the start, 32 for each byte and 64
for the two programs once through.
-/

namespace CompTech.Sharmem

open Lib

variable {s t : State} {v v' : SEM → Nat} {w w' : Writer} {r r' : Reader} {e : Event} {k : Nat}

/-! ## Somebody can go on

At each place of the writer its call can be made, or the reader's can: the two do not wait at once.
-/

/-- The next call of the writer puts it to sleep, or it is asleep in it already. -/
def Writer.Waits (s : State) (w : Writer) : Prop :=
  ∃ ops next, WriterOp w.pc ops next ∧ s.semop w.task ops = .sleep

/-- The same for the reader. -/
def Reader.Waits (s : State) (r : Reader) : Prop :=
  ∃ ops next, ReaderOp r.pc ops next ∧ s.semop r.task ops = .sleep

/-- A call that does not wait is a step, be it an error. -/
theorem writerSemop_isSome {ops : List (Sembuf SEM)} {i : Nat} (next : WriterPc)
    (h : s.semop w.task ops ≠ .sleep) : (s.writerSemop i w ops next).isSome = true := by
  unfold State.writerSemop
  split
  · rfl
  · rename_i hcall
    exact absurd hcall h
  · rfl

/-- A call that does not wait is a step. -/
theorem readerSemop_isSome {ops : List (Sembuf SEM)} {j : Nat} (next : ReaderPc)
    (h : s.semop r.task ops ≠ .sleep) : (s.readerSemop j r ops next).isSome = true := by
  unfold State.readerSemop
  split
  · rfl
  · rename_i hcall
    exact absurd hcall h
  · split <;> rfl

/-- How much `read` may give at once: a block, or what is left. -/
def Writer.chunk (w : Writer) : Nat := min blockSize (w.file.length - w.pos)

/-- A writer that does not have to wait has a next step, if `read` returns what it can. -/
theorem runWriter_isSome {i : Nat} (hpc : w.pc ≠ .returned) (hfile : w.pos ≤ w.file.length)
    (hw : ¬w.Waits s) : (s.runWriter i w w.chunk).isSome = true := by
  have hcall : ∀ {pc ops next}, w.pc = pc → WriterOp pc ops next → s.semop w.task ops ≠ .sleep := by
    rintro pc ops next rfl ho hs
    exact hw ⟨ops, next, ho, hs⟩
  unfold State.runWriter
  split
  · rename_i hp; exact writerSemop_isSome _ (hcall hp .alone)
  · rename_i hp; exact writerSemop_isSome _ (hcall hp .wait)
  · split <;> rfl
  · rename_i hp; exact writerSemop_isSome _ (hcall hp .syncRead)
  · rename_i hp; exact writerSemop_isSome _ (hcall hp .syncWrite)
  · rfl
  · rename_i hp; exact writerSemop_isSome _ (hcall hp .pEmpty)
  · rename_i hp; exact writerSemop_isSome _ (hcall hp .check)
  · have hblock : 0 < blockSize := by decide
    have hchunk : w.chunk ≤ blockSize ∧ w.pos + w.chunk ≤ w.file.length ∧
        (w.chunk = 0 → w.pos = w.file.length) := by
      unfold Writer.chunk
      omega
    rw [if_pos hchunk]
    rfl
  · rfl
  · rfl
  · rename_i hp; exact writerSemop_isSome _ (hcall hp .vFull)
  · rfl
  · rename_i hp; exact writerSemop_isSome _ (hcall hp .endWr)
  · rfl
  · rfl
  · rfl
  · rename_i hp; exact absurd hp hpc

theorem runReader_isSome {j : Nat} (hpc : r.pc ≠ .returned) (hr : ¬r.Waits s) :
    (s.runReader j r).isSome = true := by
  have hcall : ∀ {pc ops next}, r.pc = pc → ReaderOp pc ops next → s.semop r.task ops ≠ .sleep := by
    rintro pc ops next rfl ho hs
    exact hr ⟨ops, next, ho, hs⟩
  unfold State.runReader
  split
  · rename_i hp; exact readerSemop_isSome _ (hcall hp .alone)
  · rename_i hp; exact readerSemop_isSome _ (hcall hp .wait)
  · split <;> rfl
  · rename_i hp; exact readerSemop_isSome _ (hcall hp .syncWrite)
  · rename_i hp; exact readerSemop_isSome _ (hcall hp .syncRead)
  · rename_i hp; exact readerSemop_isSome _ (hcall hp .pFull)
  · rename_i hp; exact readerSemop_isSome _ (hcall hp .check)
  · rfl
  · rfl
  · rename_i hp; exact readerSemop_isSome _ (hcall hp .vEmpty)
  · rename_i hp; exact readerSemop_isSome _ (hcall hp .endRd)
  · rfl
  · rename_i hp; exact absurd hp hpc

/-- One of the two does not have to wait for the other, by the semaphores or by the order. -/
theorem Lockstep.progress {a b full empty syncRd syncWr len : Nat}
    (h : Lockstep a b full empty syncRd syncWr len) :
    b ≠ 12 ∧ (b = 4 → 0 < syncRd) ∧ (b = 5 → 0 < full) ∨
      (a = 4 → 0 < syncWr) ∧ (a = 6 → 0 < empty) ∧ (a = 7 → 5 ≤ b ∧ b ≤ 10) ∧
        (a = 13 → 7 ≤ b) ∧ (a = 16 → 10 ≤ b) := by
  obtain ⟨h₁, h₂, h₃, h₄, h₅, h₆, h₇, h₈, h₉, h₁₀, h₁₁⟩ := h
  by_cases hreader : b ≠ 12 ∧ (b = 4 → 0 < syncRd) ∧ (b = 5 → 0 < full)
  · exact .inl hreader
  · refine .inr ⟨?_, ?_, ?_, ?_, ?_⟩ <;> grind

/-- **No deadlock.** Until both have returned, one of the two programs has a step in order. -/
theorem InStep.progress (h : InStep s w r) (hacc : s.Accounted) :
    w.pc = .returned ∧ r.pc = .returned ∨ ∃ e, Orderly s e ∧ (s.step e).isSome = true := by
  have hreader : r.pc ≠ .returned → ¬r.Waits s →
      ∃ e, Orderly s e ∧ (s.step e).isSome = true := by
    intro hpc hwait
    have hrun := h.reader.resolve_right fun hd => hpc hd.2
    refine ⟨.reader 0 (.run 0), ⟨rfl, rfl⟩, ?_⟩
    simp only [State.step, h.readers, List.getElem?_cons_zero, Option.bind_some, State.stepReader,
      hrun, if_true]
    exact runReader_isSome hpc hwait
  have hwriter : w.pc ≠ .returned → ¬w.Waits s →
      (w.pc = .checkNumProc → r.connected = true) → (w.pc = .endWr → 7 ≤ r.pc.rank) →
      (w.pc = .deleteSem → 10 ≤ r.pc.rank) → ∃ e, Orderly s e ∧ (s.step e).isSome = true := by
    intro hpc hwait hcheck hend hdelete
    have hrun := h.writer.resolve_right fun hd => hpc hd.2
    refine ⟨.writer 0 (.run w.chunk), ⟨rfl, ?_⟩, ?_⟩
    · rw [← ReaderPc.pastCheck_iff] at hend
      rw [← ReaderPc.leftLoop_iff] at hdelete
      simp only [State.inOrder, h.writers, h.readers, List.getElem?_cons_zero, Option.all_some,
        List.all_cons, List.all_nil, Bool.and_true, Bool.and_eq_true, Bool.or_eq_true,
        decide_eq_true_eq]
      exact ⟨⟨Decidable.not_or_of_imp hcheck, Decidable.not_or_of_imp hend⟩,
        Decidable.not_or_of_imp hdelete⟩
    · simp only [State.step, h.writers, List.getElem?_cons_zero, Option.bind_some,
        State.stepWriter, hrun, if_true]
      exact runWriter_isSome hpc h.inFile hwait
  cases hv : s.sems with
  | none =>
    obtain ⟨hwpc, hrank⟩ := h.gone hv
    by_cases hrpc : r.pc = .returned
    · exact .inl ⟨hwpc, hrpc⟩
    · -- the reader does not wait for a set that is gone
      refine .inr (hreader hrpc ?_)
      rintro ⟨ops, next, -, hcall⟩
      simp only [State.semop, hv, reduceCtorEq] at hcall
  | some v =>
    obtain ⟨hwpc, hlock⟩ := h.sems v hv
    have hwrun := h.writer.resolve_right fun hd => hwpc hd.2
    rcases hlock.progress with ⟨hrpc, hrd, hfull⟩ |
      ⟨hwr, hempty, hcheck, hend, hdelete⟩
    · have hret : r.pc ≠ .returned := fun hpc => hrpc (by rw [hpc]; rfl)
      have hrun := h.reader.resolve_right fun hd => hret hd.2
      refine .inr (hreader hret ?_)
      rintro ⟨ops, next, hop, hcall⟩
      simp only [State.semop, hv] at hcall
      rcases h.reader_call (hacc v hv) hv hrun hop with ⟨v', adj, hd⟩ | ⟨-, hwait⟩
      · simp only [hd, reduceCtorEq] at hcall
      · rcases hwait with ⟨hpc, hz⟩ | ⟨hpc, hz⟩
        · have hpos := hrd (by rw [hpc]; rfl)
          omega
        · have hpos := hfull (by rw [hpc]; rfl)
          omega
    · have hconn : w.pc = .checkNumProc → r.connected = true := by
        intro hpc
        have hrank := hcheck (by rw [hpc]; rfl)
        have hrun : r.task.life = .running := by
          refine h.reader.resolve_right fun hd => ?_
          rw [hd.2] at hrank
          exact absurd hrank.2 (by decide)
        rw [Reader.connected, Task.live_running hrun, (ReaderPc.connected_iff _).mpr hrank]
        rfl
      refine .inr (hwriter hwpc ?_ hconn (fun hpc => hend (by rw [hpc]; rfl))
        fun hpc => hdelete (by rw [hpc]; rfl))
      rintro ⟨ops, next, hop, hcall⟩
      simp only [State.semop, hv] at hcall
      rcases h.writer_call (hacc v hv) hv hwrun hop hconn with ⟨v', adj, hd⟩ | ⟨-, hwait⟩
      · simp only [hd, reduceCtorEq] at hcall
      · rcases hwait with ⟨hpc, hz⟩ | ⟨hpc, hz⟩
        · have hpos := hwr (by rw [hpc]; rfl)
          omega
        · have hpos := hempty (by rw [hpc]; rfl)
          omega

/-! ## What is left to do

The measure, in parts: what a sleeping process has more to do, what each place has left, and what
the bytes of the file still cost. -/

/-- One for falling asleep and two for the exit. -/
def Task.work (k : Task) : Nat :=
  (if k.asleep = true then 0 else 1) + (if k.life = .running then 2 else 0)

/-- Two for each call up to the return, 32 for each byte not read: a block read is at least one
    byte, and pays for the round of the writer and the round of the reader it brings about. -/
def Writer.work (w : Writer) : Nat :=
  w.task.work + 2 * (17 - w.pc.rank) + 32 * (w.file.length - w.pos) +
    if 9 ≤ w.pc.rank ∧ w.pc.rank ≤ 11 ∧ 0 < w.numSymb then 32 else 0

/-- Two for each call up to the return. A round is not counted: the reader goes round as often as
    there are blocks, and those are counted with the writer and in `onWay`. -/
def Reader.work (r : Reader) : Nat := r.task.work + 2 * (12 - r.pc.rank)

/-- The round of the reader for a block in a slot or in its hands. -/
def onWay (full b len : Nat) : Nat := if (0 < full ∨ 6 ≤ b ∧ b ≤ 9) ∧ 0 < len then 16 else 0

/-- FULL, and 0 when the set is gone. -/
def State.full (s : State) : Nat := s.sems.elim 0 fun v => v .full

/-- What the pair has left to do. -/
def State.work (s : State) : Nat :=
  match s.writers, s.readers with
  | [w], [r] => w.work + r.work + onWay s.full r.pc.rank s.shmLen
  | _, _ => 0

theorem State.work_eq (hws : s.writers = [w]) (hrs : s.readers = [r]) :
    s.work = w.work + r.work + onWay s.full r.pc.rank s.shmLen := by
  rw [State.work, hws, hrs]

theorem State.full_eq (hv : s.sems = some v) : s.full = v .full := by
  rw [State.full, hv]
  rfl

/-- A block under way counts for one round at most. -/
theorem onWay_le (full b len : Nat) : onWay full b len ≤ 16 := by
  unfold onWay
  split <;> decide

/-- Nothing is on the way once the reader has left its loop. -/
theorem InStep.onWay_left (h : InStep s w r) (hr : 10 ≤ r.pc.rank) :
    onWay s.full r.pc.rank s.shmLen = 0 := by
  have hfull : s.full = 0 := by
    cases hv : s.sems with
    | none => rw [State.full, hv]; rfl
    | some v => exact (State.full_eq hv).trans ((h.sems v hv).2.leaving.2 hr).1
  rw [onWay, hfull, if_neg]
  omega

/-- A call that is done may have woken the process, which can fall asleep again. -/
theorem Task.work_done (k : Task) (adj : SEM → Int) :
    ({ k with adj := adj, asleep := false } : Task).work ≤ k.work + 1 := by
  simp only [Task.work]
  split <;> split <;> omega

/-- Falling asleep is a step, and it is counted. -/
theorem Task.work_sleep {k : Task} (h : k.asleep = false) : k.sleep.work < k.work := by
  rw [Task.work, Task.work, h]
  change 0 + (if k.life = .running then 2 else 0) < 1 + (if k.life = .running then 2 else 0)
  omega

theorem Task.work_gone {k : Task} (h : k.life = .running) : k.gone.work < k.work := by
  simp only [Task.work, Task.gone, h, Bool.false_eq_true, reduceCtorEq, if_true, if_false]
  omega

/-! ### The writer -/

/-- A completed operation of the writer. In `v_full` it goes back by five calls and a block is on
    its way: the 32 of the block read pay for both. -/
theorem WriterOp.work_lt {ops : List (Sembuf SEM)} {next : WriterPc} {adj : SEM → Int}
    {b len : Nat} (ho : WriterOp w.pc ops next)
    (hn : w.pc = .vFull → (next = .pEmpty ↔ 0 < w.numSymb))
    (hd : semop ops v w.task.adj = .done v' adj)
    (hstored : w.pc = .vFull → len = w.numSymb.toNat) :
    ({ w with task := { w.task with adj := adj, asleep := false }, pc := next } : Writer).work +
        onWay (v' .full) b len < w.work + onWay (v .full) b len := by
  obtain ⟨k, pc, file, pos, buf, num⟩ := w
  have htask := k.work_done adj
  cases ho with
  | vFull =>
    have hnum : 0 < num := (hn rfl).mp rfl
    have hle := onWay_le (v' .full) b len
    simp [Writer.work, WriterPc.rank, hnum]
    omega
  | vFullLast =>
    have hnum : ¬0 < num := fun hpos => WriterPc.noConfusion ((hn rfl).mpr hpos)
    have hlen : len = 0 := by
      rw [hstored rfl]
      change num.toNat = 0
      omega
    simp [Writer.work, WriterPc.rank, hnum, hlen, onWay]
    omega
  | _ =>
    rw [semop_unchanged hd rfl]
    simp [Writer.work, WriterPc.rank]
    omega

/-- What the writer does without the semaphores. A `read` that finds something takes its bytes out
    of those that are left and puts 32 aside for the round. -/
theorem WriterLocal.work_lt {full b shmLen : Nat} {shmData : List Byte}
    (hl : WriterLocal s w w' shmLen shmData)
    (hstore : w.pc = .storeNumSymb → full = 0 ∧ b ≤ 5) :
    w'.work + onWay full b shmLen < w.work + onWay full b s.shmLen := by
  cases hl with
  | sleep _ _ hawake =>
    have htask := Task.work_sleep hawake
    simp [Writer.work]
    omega
  | read k hpc hk =>
    -- a block that is read pays for its two rounds
    have hcost : 32 * (w.file.length - (w.pos + k)) + 32 * k = 32 * (w.file.length - w.pos) := by
      omega
    rcases Nat.eq_zero_or_pos k with rfl | hk
    · simp [Writer.work, WriterPc.rank, hpc]
    · simp [Writer.work, WriterPc.rank, hpc, hk]
      omega
  | storeNumSymb hpc =>
    obtain ⟨hfull, hb⟩ := hstore hpc
    have hidle : ∀ len, onWay full b len = 0 := by
      intro len
      rw [onWay, if_neg]
      omega
    rw [hidle, hidle]
    simp [Writer.work, WriterPc.rank, hpc]
  | openFile hpc | memcpy hpc | closeFile hpc | unlinkShm hpc | deleteShm hpc =>
    simp [Writer.work, WriterPc.rank, hpc]

/-- What has to be shown of a step of the pair. -/
theorem InStep.less (h : InStep s w r) (hws : t.writers = [w']) (hrs : t.readers = [r'])
    (hlt : w'.work + r'.work + onWay t.full r'.pc.rank t.shmLen <
      w.work + r.work + onWay s.full r.pc.rank s.shmLen) : t.work < s.work := by
  rwa [State.work_eq hws hrs, State.work_eq h.writers h.readers]

/-- **Each step of the writer in order** leaves less to do. -/
theorem InStep.writerMove_lt (h : InStep s w r) (hacc : s.Accounted)
    (hrun : w.task.life = .running) (ho : Orderly s (.writer 0 (.run k)))
    (hm : WriterMove s 0 w t) : t.work < s.work := by
  obtain ⟨hcheck, -, hdelete⟩ := h.orders ho
  have hset : ∀ {w'}, s.writers.set 0 w' = [w'] := by
    intro w'
    rw [h.writers]
    rfl
  cases hm with
  | @semop ops next v v' adj hop hn hv hd =>
    refine h.less hset h.readers ?_
    have hlt := hop.work_lt (b := r.pc.rank) hn hd h.stored
    rw [State.full_eq hv]
    change _ + r.work + onWay (v' .full) r.pc.rank s.shmLen < _
    omega
  | @setval v hpc hv =>
    have hws : ((s.clearAll .full).writers.set 0 { w.clear .full with pc := .syncRead }) =
        [{ w.clear .full with pc := .syncRead }] := by
      rw [(h.clearAll .full).writers]
      rfl
    refine h.less hws (h.clearAll .full).readers ?_
    have hzero : setval v .full 0 .full = s.full := by
      have hlock := (h.sems v hv).2
      rw [hpc] at hlock
      rw [setval_self, State.full_eq hv]
      exact (hlock.first (by decide)).1.symm
    change _ + r.work + onWay (setval v .full 0 .full) r.pc.rank s.shmLen < _
    rw [hzero]
    have hw : ({ w.clear .full with pc := .syncRead } : Writer).work < w.work := by
      simp [Writer.work, WriterPc.rank, hpc, Writer.clear, Task.clear, Task.work]
    omega
  | @quiet w' shmLen shmData hl =>
    refine h.less hset h.readers ?_
    have hstore : w.pc = .storeNumSymb → s.full = 0 ∧ r.pc.rank ≤ 5 := by
      intro hpc
      cases hv : s.sems with
      | none => exact absurd (hpc.symm.trans (h.gone hv).1) WriterPc.noConfusion
      | some v =>
        have hlock := (h.sems v hv).2
        rw [hpc] at hlock
        have hwriting := hlock.writing (by decide) (by decide)
        exact ⟨(State.full_eq hv).trans hwriting.1, hwriting.2.2⟩
    have hlt := hl.work_lt hstore
    change w'.work + r.work + onWay s.full r.pc.rank shmLen < _
    omega
  | fail hf => exact absurd hf (h.writer_noFail hacc hrun hcheck)
  | remove hpc =>
    refine h.less hset h.readers ?_
    have hnone : onWay 0 r.pc.rank s.shmLen = 0 := by
      have hrank := hdelete hpc
      rw [onWay, if_neg]
      omega
    change _ + r.work + onWay 0 r.pc.rank s.shmLen < _
    have hw : ({ w with pc := .returned } : Writer).work < w.work := by
      simp [Writer.work, WriterPc.rank, hpc]
    omega

/-! ### The reader -/

/-- A completed operation of the reader. In `v_empty` it goes back by four calls, and the block that
    was on its way pays. -/
theorem ReaderOp.work_lt {ops : List (Sembuf SEM)} {next : ReaderPc} {adj : SEM → Int}
    {a len : Nat} (ho : ReaderOp r.pc ops next)
    (hn : r.pc = .vEmpty → (next = .pFull ↔ 0 < len))
    (hd : semop ops v r.task.adj = .done v' adj)
    (hlock : Lockstep a r.pc.rank (v .full) (v .empty) (v .syncRd) (v .syncWr) len) :
    ({ r with task := { r.task with adj := adj, asleep := false }, pc := next } : Reader).work +
        onWay (v' .full) next.rank len < r.work + onWay (v .full) r.pc.rank len := by
  obtain ⟨k, pc, num, out⟩ := r
  have htask := k.work_done adj
  cases ho with
  | pFull =>
    have hpos := (semop_pred (s := SEM.full) hd rfl).2
    have hsame : onWay (v' .full) 6 len = onWay (v .full) 5 len := by
      simp [onWay, hpos]
    simp only [Reader.work, ReaderPc.rank, hsame]
    omega
  | vEmpty =>
    have hlen : 0 < len := (hn rfl).mp rfl
    have hfull : v .full = 0 := by
      have hb : 6 ≤ ReaderPc.vEmpty.rank ∧ ReaderPc.vEmpty.rank ≤ 9 := by decide
      exact (hlock.reading hb.1 hb.2).1
    rw [semop_unchanged hd rfl]
    simp [Reader.work, ReaderPc.rank, onWay, hlen, hfull]
    omega
  | vEmptyLast =>
    have hlen : len = 0 :=
      Nat.eq_zero_of_not_pos fun hpos => ReaderPc.noConfusion ((hn rfl).mpr hpos)
    simp [Reader.work, ReaderPc.rank, onWay, hlen]
    omega
  | _ =>
    rw [semop_unchanged hd rfl]
    simp [Reader.work, ReaderPc.rank, onWay]
    omega

/-- What the reader does without the semaphores. -/
theorem ReaderLocal.work_lt {full len : Nat} (hl : ReaderLocal s r r') :
    r'.work + onWay full r'.pc.rank len < r.work + onWay full r.pc.rank len := by
  cases hl with
  | sleep _ _ hawake =>
    have htask := Task.work_sleep hawake
    simp only [Reader.work]
    omega
  | load hpc | write hpc | unlinkShm hpc => simp [Reader.work, ReaderPc.rank, onWay, hpc]

/-- **Each step of the reader** leaves less to do. -/
theorem InStep.readerMove_lt (h : InStep s w r) (hacc : s.Accounted)
    (hrun : r.task.life = .running) (hm : ReaderMove s 0 r t) : t.work < s.work := by
  have hset : ∀ {r'}, s.readers.set 0 r' = [r'] := by
    intro r'
    rw [h.readers]
    rfl
  cases hm with
  | @semop ops next v v' adj hop hn hv hd =>
    have hloop : r.pc = .vEmpty → (next = .pFull ↔ 0 < s.shmLen) := by
      intro hpc
      rw [hn hpc, h.taken (.inr hpc)]
      omega
    refine h.less h.writers hset ?_
    have hlt := hop.work_lt hloop hd (h.sems v hv).2
    rw [State.full_eq hv]
    change w.work + _ + onWay (v' .full) next.rank s.shmLen < _
    omega
  | @setval v hpc hv =>
    have hrs : ((s.clearAll .empty).readers.set 0 { r.clear .empty with pc := .syncWrite }) =
        [{ r.clear .empty with pc := .syncWrite }] := by
      rw [(h.clearAll .empty).readers]
      rfl
    refine h.less (h.clearAll .empty).writers hrs ?_
    have hsame : setval v .empty 1 .full = s.full := by
      rw [setval_of_ne (by decide), State.full_eq hv]
    change w.work + _ + onWay (setval v .empty 1 .full) 3 s.shmLen < _
    rw [hsame, hpc]
    have hr : ({ r.clear .empty with pc := .syncWrite } : Reader).work < r.work := by
      simp [Reader.work, ReaderPc.rank, hpc, Reader.clear, Task.clear, Task.work]
    have hway : onWay s.full 3 s.shmLen = onWay s.full ReaderPc.setvalEmpty.rank s.shmLen := by
      simp [onWay, ReaderPc.rank]
    omega
  | quiet hl =>
    refine h.less h.writers hset ?_
    have hlt : _ + onWay s.full _ s.shmLen < r.work + onWay s.full _ s.shmLen := hl.work_lt
    change w.work + _ + onWay s.full _ s.shmLen < _
    omega
  | fail hf => exact absurd hf (h.reader_noFail hacc hrun)
  | endGone hpc hnone =>
    refine h.less h.writers hset ?_
    have hr : ({ r with pc := .unlinkShm } : Reader).work < r.work := by
      simp [Reader.work, ReaderPc.rank, hpc]
    have hway : onWay s.full 11 s.shmLen = onWay s.full ReaderPc.endRd.rank s.shmLen := by
      simp [onWay, ReaderPc.rank]
    change w.work + _ + onWay s.full 11 s.shmLen < _
    rw [hpc]
    omega

/-! ### The pair -/

/-- The exit of the writer. -/
theorem InStep.writerExit_lt (h : InStep s w r) (hrun : w.task.life = .running)
    (hpc : w.pc = .returned) : (s.exitWriter 0 w).work < s.work := by
  have hexit := h.writerExit hpc
  have hrank : 10 ≤ r.pc.rank := by
    cases hv : s.sems with
    | none => exact (h.gone hv).2
    | some v => exact absurd hpc (h.sems v hv).1
  refine h.less hexit.writers hexit.readers ?_
  rw [hexit.onWay_left hrank, h.onWay_left hrank]
  have htask := Task.work_gone hrun
  simp only [Writer.work]
  omega

theorem InStep.readerExit_lt (h : InStep s w r) (hacc : s.Accounted)
    (hrun : r.task.life = .running) (hpc : r.pc = .returned) :
    (s.exitReader 0 r).work < s.work := by
  have hexit := h.readerExit hacc hrun hpc
  have hrank : 10 ≤ r.pc.rank := by rw [hpc]; decide
  refine h.less hexit.writers hexit.readers ?_
  rw [hexit.onWay_left hrank, h.onWay_left hrank]
  have htask := Task.work_gone hrun
  simp only [Reader.work]
  omega

/-- **Every step in order** leaves less to do. -/
theorem InStep.work_lt (h : InStep s w r) (hacc : s.Accounted) (ho : Orderly s e)
    (hs : Steps s e t) : t.work < s.work := by
  cases hs with
  | writerMove hw hrun hm =>
    obtain ⟨rfl, rfl⟩ := eq_of_getElem?_single h.writers hw
    exact h.writerMove_lt hacc hrun ho hm
  | writerErr => cases ho.1
  | writerExit hw hlive hor =>
    obtain ⟨rfl, rfl⟩ := eq_of_getElem?_single h.writers hw
    have hrun := h.writer.resolve_right fun hd => hlive hd.1
    rcases hor with ⟨rfl, hfail | hpc⟩ | rfl
    · rw [hrun] at hfail
      cases hfail
    · exact h.writerExit_lt hrun hpc
    · cases ho.1
  | readerMove hr hrun hm =>
    obtain ⟨rfl, rfl⟩ := eq_of_getElem?_single h.readers hr
    exact h.readerMove_lt hacc hrun hm
  | readerErr => cases ho.1
  | readerExit hr hlive hor =>
    obtain ⟨rfl, rfl⟩ := eq_of_getElem?_single h.readers hr
    have hrun := h.reader.resolve_right fun hd => hlive hd.1
    rcases hor with ⟨rfl, hfail | hpc⟩ | rfl
    · rw [hrun] at hfail
      cases hfail
    · exact h.readerExit_lt hacc hrun hpc
    · cases ho.1

section Runs

variable {file : List Byte} {len : Nat} {data : List Byte} {es : List Event}

theorem InStep.start (file : List Byte) (len : Nat) (data : List Byte) :
    InStep (State.start [file] 1 len data) (.start file) .start where
  writers := rfl
  readers := rfl
  writer := .inl rfl
  reader := .inl rfl
  sems v hv := by
    obtain rfl := Option.some_inj.mp hv
    exact ⟨WriterPc.noConfusion, .start len⟩
  gone hnone := absurd hnone (Option.some_ne_none _)
  awake hc := ReaderPc.noConfusion hc
  taken hc := by rcases hc with hc | hc <;> cases hc
  stored hc := WriterPc.noConfusion hc
  inFile := Nat.zero_le _

/-- The accounts, and the two in step. -/
def State.OnCourse (s : State) : Prop := s.Accounted ∧ ∃ w r, InStep s w r

theorem State.OnCourse.start (file : List Byte) (len : Nat) (data : List Byte) :
    (State.start [file] 1 len data).OnCourse :=
  ⟨.start [file] 1 len data, _, _, .start file len data⟩

/-- A step in order, and what it leaves to do. -/
theorem State.OnCourse.step (h : s.OnCourse) (ho : Orderly s e) (hst : s.step e = some t) :
    t.OnCourse ∧ t.work < s.work := by
  obtain ⟨hacc, w, r, hin⟩ := h
  have hs := step_steps hst
  exact ⟨⟨hacc.step hs, hin.step hacc ho hs⟩, hin.work_lt hacc ho hs⟩

/-- What there is to do at the start. -/
theorem work_start (file : List Byte) (len : Nat) (data : List Byte) :
    (State.start [file] 1 len data).work = 32 * file.length + 64 := by
  rw [State.work_eq rfl rfl]
  simp [Writer.work, Reader.work, Writer.start, Reader.start, Task.work, Task.start, onWay,
    WriterPc.rank, ReaderPc.rank, State.full, State.start]
  omega

/-- **No spurious failure in order.** In every run in which nobody is killed, no call fails on its
    own account and the writer does not overtake the reader: no process fails, one that is gone has
    returned, the run ends after a number of steps that depends on the length of the file only, and
    it does not end before both have returned. `Orderly` asks three things of the order: the
    writer's check comes after the reader has connected, its exit after the reader's last check, and
    the removal of the set after the reader's last post. -/
theorem orderly_transfer
    (h : Run State.step Orderly (State.start [file] 1 len data) es s) :
    (∀ w ∈ s.writers, w.task.life = .running ∨ w.task.life = .dead ∧ w.pc = .returned) ∧
    (∀ r ∈ s.readers, r.task.life = .running ∨ r.task.life = .dead ∧ r.pc = .returned) ∧
    es.length ≤ 32 * file.length + 64 ∧
    ((∀ w ∈ s.writers, w.pc = .returned) ∧ (∀ r ∈ s.readers, r.pc = .returned) ∨
      ∃ e, Orderly s e ∧ (s.step e).isSome = true) := by
  have hstart := State.OnCourse.start file len data
  obtain ⟨hacc, w, r, hin⟩ := h.invariant hstart fun _ _ _ hi ho hst => (hi.step ho hst).1
  have hlength := h.length_le hstart fun _ _ _ hi ho hst => hi.step ho hst
  rw [work_start] at hlength
  have hw : ∀ {P : Writer → Prop}, P w → ∀ w' ∈ s.writers, P w' := by
    intro P hP w' hmem
    rw [hin.writers, List.mem_singleton] at hmem
    exact hmem ▸ hP
  have hr : ∀ {P : Reader → Prop}, P r → ∀ r' ∈ s.readers, P r' := by
    intro P hP r' hmem
    rw [hin.readers, List.mem_singleton] at hmem
    exact hmem ▸ hP
  refine ⟨hw hin.writer, hr hin.reader, hlength, ?_⟩
  exact (hin.progress hacc).imp_left fun ⟨hwpc, hrpc⟩ => ⟨hw hwpc, hr hrpc⟩

/-- A file of one byte; the reader passes its last check before the writer leaves, and comes to
    its last operation when the set is gone. -/
def orderlyRun : List Event :=
  reads 0 4 ++ writes 0 5 ++ reads 0 1 ++ writes 0 3 ++ [.writer 0 (.run 1)] ++ writes 0 3 ++
    reads 0 5 ++ writes 0 7 ++ reads 0 2 ++ writes 0 1 ++ reads 0 3 ++ writes 0 3 ++ reads 0 2

/-- At its end both have returned, after fewer steps than the bound. -/
theorem orderly_transfer_done : ∃ s,
    Run State.step Orderly (State.start [[7]] 1 0 []) orderlyRun s ∧
      (∀ w ∈ s.writers, w.pc = .returned) ∧ (∀ r ∈ s.readers, r.pc = .returned) ∧
      orderlyRun.length ≤ 32 * 1 + 64 := by
  have hexec : (exec State.step Orderly orderlyRun (State.start [[7]] 1 0 [])).any
      (fun s => s.writers.all (·.pc = .returned) && s.readers.all (·.pc = .returned)) = true := by
    decide
  obtain ⟨s, hrun, hall⟩ := Run.exists_of_exec hexec
  obtain ⟨hw, hr⟩ := Bool.and_eq_true_iff.mp hall
  exact ⟨s, hrun, fun w hm => of_decide_eq_true (List.all_eq_true.mp hw w hm),
    fun r hm => of_decide_eq_true (List.all_eq_true.mp hr r hm), (orderly_transfer hrun).2.2.1⟩

/-- The writer runs ahead right after the rendezvous: NUM_PROC is 1 when it checks. -/
def aheadRun : List Event := reads 0 4 ++ writes 0 8

/-- So without the order a call fails though nobody is killed: the `IPC_NOWAIT` of the check. -/
theorem writer_fails : ¬ ∀ (file : List Byte) (len : Nat) (data : List Byte) (es : List Event)
    (s : State), Run State.step Unharmed (State.start [file] 1 len data) es s →
      (∀ w ∈ s.writers, w.task.life ≠ .failing) ∧ ∀ r ∈ s.readers, r.task.life ≠ .failing := by
  intro hall
  have hexec : (exec State.step Unharmed aheadRun (State.start [[7]] 1 0 [])).any
      (fun s => s.writers.any (·.task.life = .failing)) = true := by
    decide
  obtain ⟨s, hrun, hany⟩ := Run.exists_of_exec hexec
  obtain ⟨w, hw, hfail⟩ := List.any_eq_true.mp hany
  exact (hall _ _ _ _ _ hrun).1 w hw (of_decide_eq_true hfail)

end Runs

end CompTech.Sharmem
