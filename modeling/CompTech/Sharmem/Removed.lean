import CompTech.Lib.Tables
import CompTech.Sharmem.Progress
import CompTech.Sharmem.Whole

/-!
# When the set is gone

The writer that comes to its end removes the semaphore set, and it does not ask who else works on
it. `removed_run` says what that means for the others: every process that was in front of one of its
operations takes its error exit, only who has done its last one returns, and nobody hangs — a
process asleep in a `semop` is woken and fails. So a handful of steps later all are gone, however
many there were.

Without the set no `semop` can wait, so a process only goes forward: either it takes its error exit
or it comes to the end of what it does without the semaphores. `left` counts that for each place; it
is 2 in front of an operation, for the error and the exit. The result is about any number of
processes and needs no clean step, since nothing is said about what they have put out before.
-/

namespace CompTech.Sharmem

open Lib

variable {s t : State} {i j k : Nat} {w w' : Writer} {r r' : Reader} {e : Event}
  {files : List (List Byte)} {n len : Nat} {data : List Byte} {es fs : List Event}

/-- The steps that a running writer has left without the set. -/
def WriterPc.left : WriterPc → Nat
  | .read | .unlinkShm => 5
  | .memcpy | .deleteShm => 4
  | .openFile | .storeNumSymb | .closeFile | .deleteSem => 3
  | _ => 2

/-- The steps that a running reader has left without the set. In front of its last operation it goes
    on to its return, since it forgives the error. -/
def ReaderPc.left : ReaderPc → Nat
  | .load | .endRd => 4
  | .write | .unlinkShm => 3
  | _ => 2

/-- With `n` for a process that runs; one that has failed has its exit left. -/
def Task.left (k : Task) (n : Nat) : Nat :=
  match k.life with
  | .running => n
  | .failing => 1
  | .dead => 0

/-- The steps a writer has left. -/
def Writer.left (w : Writer) : Nat := w.task.left w.pc.left

/-- The steps a reader has left. -/
def Reader.left (r : Reader) : Nat := r.task.left r.pc.left

/-- All of them together. -/
def State.left (s : State) : Nat :=
  (s.writers.map Writer.left).sum + (s.readers.map Reader.left).sum

/-- A step of the program or the exit, not an accident. -/
def Event.own : Event → Bool
  | .writer _ (.run _) | .writer _ .exit | .reader _ (.run _) | .reader _ .exit => true
  | _ => false

/-! ## Everybody comes closer to its end -/

/-- A running writer has a step of its program and its exit left at least. -/
theorem WriterPc.two_le_left (pc : WriterPc) : 2 ≤ pc.left := by cases pc <;> decide

theorem ReaderPc.two_le_left (pc : ReaderPc) : 2 ≤ pc.left := by cases pc <;> decide

/-- While the process runs, it is its place that counts. -/
theorem Task.left_running {k : Task} (hrun : k.life = .running) (n : Nat) : k.left n = n := by
  rw [Task.left, hrun]

/-- A process that is there has something left. -/
theorem Task.left_pos {k : Task} (hne : k.life ≠ .dead) {n : Nat} (hn : 2 ≤ n) : 0 < k.left n := by
  unfold Task.left
  split
  · omega
  · exact Nat.one_pos
  · rename_i hdead
    exact absurd hdead hne

/-- When one writer comes closer to its end, all together do. -/
theorem State.left_setWriter (hw : s.writers[i]? = some w) (hlt : w'.left < w.left)
    (hws : t.writers = s.writers.set i w') (hrs : t.readers = s.readers) : t.left < s.left := by
  have hsum : ((s.writers.set i w').map Writer.left).sum + w.left =
      (s.writers.map Writer.left).sum + w'.left := sum_map_set Writer.left hw
  rw [State.left, hws, hrs, State.left]
  omega

theorem State.left_setReader (hr : s.readers[j]? = some r) (hlt : r'.left < r.left)
    (hws : t.writers = s.writers) (hrs : t.readers = s.readers.set j r') : t.left < s.left := by
  have hsum : ((s.readers.set j r').map Reader.left).sum + r.left =
      (s.readers.map Reader.left).sum + r'.left := sum_map_set Reader.left hr
  rw [State.left, hws, hrs, State.left]
  omega

/-- No call sleeps on a set that is gone. -/
theorem State.semop_ne_sleep (hnone : s.sems = none) (k : Task) (ops : List (Sembuf SEM)) :
    s.semop k ops ≠ .sleep := by
  rw [State.semop, hnone]
  exact fun h => Call.noConfusion h

/-- What the writer does without the semaphores brings it closer. -/
theorem WriterLocal.left_lt {shmLen : Nat} {shmData : List Byte} (hnone : s.sems = none)
    (hrun : w.task.life = .running) (hl : WriterLocal s w w' shmLen shmData) :
    w'.left < w.left := by
  have hleft : w.left = w.pc.left := Task.left_running hrun _
  cases hl with
  | sleep _ hsleep => exact absurd hsleep (State.semop_ne_sleep hnone _ _)
  | openFile hpc | read _ hpc | memcpy hpc | storeNumSymb hpc | closeFile hpc | unlinkShm hpc
  | deleteShm hpc =>
    rw [hleft, hpc, Writer.left, Task.left_running hrun]
    simp [WriterPc.left]

theorem ReaderLocal.left_lt (hnone : s.sems = none) (hrun : r.task.life = .running)
    (hl : ReaderLocal s r r') : r'.left < r.left := by
  have hleft : r.left = r.pc.left := Task.left_running hrun _
  cases hl with
  | sleep _ hsleep => exact absurd hsleep (State.semop_ne_sleep hnone _ _)
  | load hpc | write hpc | unlinkShm hpc =>
    rw [hleft, hpc, Reader.left, Task.left_running hrun]
    simp [ReaderPc.left]

/-- **Without the set every step brings somebody closer to its end.** -/
theorem Steps.left_lt (hs : Steps s e t) (hnone : s.sems = none) : t.left < s.left := by
  have hfail : ∀ {w : Writer}, w.task.life = .running → w.fail.left < w.left := by
    intro w hrun
    rw [Writer.left, Writer.left, Task.left_running hrun]
    exact w.pc.two_le_left
  have hfail' : ∀ {r : Reader} {out : List Byte}, r.task.life = .running →
      ({ r.fail with out := out } : Reader).left < r.left := by
    intro r out hrun
    rw [Reader.left, Reader.left, Task.left_running hrun]
    exact r.pc.two_le_left
  cases hs with
  | @writerMove i n w _ hw hrun hm =>
    cases hm with
    | semop _ _ hv =>
      rw [hnone] at hv
      cases hv
    | setval _ hv =>
      rw [hnone] at hv
      cases hv
    | quiet hl => exact State.left_setWriter hw (hl.left_lt hnone hrun) rfl rfl
    | fail => exact State.left_setWriter hw (hfail hrun) rfl rfl
    | remove hpc =>
      refine State.left_setWriter hw ?_ rfl rfl
      rw [Writer.left, Writer.left, Task.left_running hrun, Task.left_running hrun, hpc]
      simp [WriterPc.left]
  | writerErr hw hrun => exact State.left_setWriter hw (hfail hrun) rfl rfl
  | @writerExit i a w hw hne =>
    have hgone : ({ w with task := w.task.gone } : Writer).left < w.left :=
      Task.left_pos hne w.pc.two_le_left
    exact State.left_setWriter hw hgone rfl rfl
  | @readerMove j n r _ hr hrun hm =>
    cases hm with
    | semop _ _ hv =>
      rw [hnone] at hv
      cases hv
    | setval _ hv =>
      rw [hnone] at hv
      cases hv
    | quiet hl => exact State.left_setReader hr (hl.left_lt hnone hrun) rfl rfl
    | fail => exact State.left_setReader hr (hfail' hrun) rfl rfl
    | endGone hpc =>
      refine State.left_setReader hr ?_ rfl rfl
      rw [Reader.left, Reader.left, Task.left_running hrun, Task.left_running hrun, hpc]
      simp [ReaderPc.left]
  | @readerErr j n r hr hrun =>
    unfold State.failReader
    split
    · exact State.left_setReader hr (hfail' hrun) rfl rfl
    · exact State.left_setReader hr (hfail' hrun) rfl rfl
  | @readerExit j a r hr hne =>
    have hgone : ({ r with task := r.task.gone } : Reader).left < r.left :=
      Task.left_pos hne r.pc.two_le_left
    exact State.left_setReader hr hgone rfl rfl

theorem WriterPc.left_le (pc : WriterPc) : pc.left ≤ 5 := by cases pc <;> decide

theorem ReaderPc.left_le (pc : ReaderPc) : pc.left ≤ 5 := by cases pc <;> decide

theorem Task.left_le (k : Task) {n : Nat} (hn : n ≤ 5) : k.left n ≤ 5 := by
  unfold Task.left
  split <;> omega

/-- So five for each process. -/
theorem State.left_le (s : State) : s.left ≤ 5 * (s.writers.length + s.readers.length) := by
  have hwriters : (s.writers.map Writer.left).sum ≤ (s.writers.map Writer.left).length • 5 :=
    List.sum_le_card_nsmul _ _ fun n hn => by
      obtain ⟨w, -, rfl⟩ := List.mem_map.mp hn
      exact Task.left_le _ w.pc.left_le
  have hreaders : (s.readers.map Reader.left).sum ≤ (s.readers.map Reader.left).length • 5 :=
    List.sum_le_card_nsmul _ _ fun n hn => by
      obtain ⟨r, -, rfl⟩ := List.mem_map.mp hn
      exact Task.left_le _ r.pc.left_le
  rw [List.length_map, smul_eq_mul] at hwriters hreaders
  unfold State.left
  omega

/-! ## Nobody gets on -/

/-- A writer that is through its last operation had been before. -/
theorem WriterNext.removed (h : WriterNext s t w w') (hnone : s.sems = none)
    (hended : w'.pc.phase = .ended) : w.pc.phase = .ended := by
  cases h with
  | still => exact hended
  | op _ _ _ hv _ =>
    rw [hnone] at hv
    cases hv
  | setval => cases hended
  | own _ hl _ =>
    rw [← hl.kept.1]
    exact hended
  | remove _ hpc =>
    rw [hpc]
    rfl

theorem ReaderNext.removed (h : ReaderNext s r r') (hnone : s.sems = none) :
    (r'.pc.leftLoop = true → r.pc.leftLoop = true) ∧
      (r.pc ≠ .load ∧ r.pc ≠ .write → r'.out = r.out ∧ r'.pc ≠ .load ∧ r'.pc ≠ .write) := by
  cases h with
  | still => exact ⟨id, fun hpc => ⟨rfl, hpc⟩⟩
  | op _ _ _ hv _ =>
    rw [hnone] at hv
    cases hv
  | setval =>
    exact ⟨fun hleft => Bool.noConfusion hleft,
      fun _ => ⟨rfl, ReaderPc.noConfusion, ReaderPc.noConfusion⟩⟩
  | cut _ _ hpc => exact ⟨id, fun hne => absurd hpc hne.2⟩
  | endGone _ hpc =>
    refine ⟨fun _ => ?_, fun _ => ⟨rfl, ReaderPc.noConfusion, ReaderPc.noConfusion⟩⟩
    rw [hpc]
    rfl
  | own _ hl =>
    cases hl with
    | sleep => exact ⟨id, fun hpc => ⟨rfl, hpc⟩⟩
    | load hpc => exact ⟨fun hleft => Bool.noConfusion hleft, fun hne => absurd hpc hne.1⟩
    | write hpc => exact ⟨fun hleft => Bool.noConfusion hleft, fun hne => absurd hpc hne.2⟩
    | unlinkShm hpc =>
      refine ⟨fun _ => ?_, fun _ => ⟨rfl, ReaderPc.noConfusion, ReaderPc.noConfusion⟩⟩
      rw [hpc]
      rfl

/-! ## Somebody can go on -/

/-- What a writer has read is in its file. -/
def State.Inside (s : State) : Prop := ∀ w ∈ s.writers, w.pos ≤ w.file.length

/-- `read` gives no more than there is. -/
theorem State.Inside.step (h : s.Inside) (hs : Steps s e t) : t.Inside := by
  intro w' hw'
  obtain ⟨i, hi⟩ := List.mem_iff_getElem?.mp hw'
  obtain ⟨w, hw, hnext⟩ := hs.writer_next hi
  have hle := h w (List.mem_of_getElem? hw)
  cases hnext with
  | own _ hl _ =>
    cases hl with
    | read k _ hk => exact hk
    | _ => exact hle
  | _ => exact hle

/-- Without the set a process that is there can go on by itself. -/
theorem State.goesOn (hnone : s.sems = none) (hin : s.Inside)
    (hlive : (∃ w ∈ s.writers, w.task.live = true) ∨ ∃ r ∈ s.readers, r.task.live = true) :
    ∃ e, e.own = true ∧ (s.step e).isSome = true := by
  rcases hlive with ⟨w, hwm, hlive⟩ | ⟨r, hrm, hlive⟩
  · obtain ⟨i, hw⟩ := List.mem_iff_getElem?.mp hwm
    have hne : w.task.life ≠ .dead := of_decide_eq_true hlive
    cases hlife : w.task.life with
    | dead => exact absurd hlife hne
    | failing =>
      refine ⟨.writer i .exit, rfl, ?_⟩
      rw [State.step, hw, Option.bind_some, State.stepWriter, if_pos (.inl hlife)]
      rfl
    | running =>
      by_cases hpc : w.pc = .returned
      · refine ⟨.writer i .exit, rfl, ?_⟩
        rw [State.step, hw, Option.bind_some, State.stepWriter, if_pos (.inr ⟨hlife, hpc⟩)]
        rfl
      · refine ⟨.writer i (.run w.chunk), rfl, ?_⟩
        rw [State.step, hw, Option.bind_some, State.stepWriter, if_pos hlife]
        refine runWriter_isSome hpc (hin w hwm) ?_
        rintro ⟨ops, next, -, hsleep⟩
        exact State.semop_ne_sleep hnone _ _ hsleep
  · obtain ⟨j, hr⟩ := List.mem_iff_getElem?.mp hrm
    have hne : r.task.life ≠ .dead := of_decide_eq_true hlive
    cases hlife : r.task.life with
    | dead => exact absurd hlife hne
    | failing =>
      refine ⟨.reader j .exit, rfl, ?_⟩
      rw [State.step, hr, Option.bind_some, State.stepReader, if_pos (.inl hlife)]
      rfl
    | running =>
      by_cases hpc : r.pc = .returned
      · refine ⟨.reader j .exit, rfl, ?_⟩
        rw [State.step, hr, Option.bind_some, State.stepReader, if_pos (.inr ⟨hlife, hpc⟩)]
        rfl
      · refine ⟨.reader j (.run 0), rfl, ?_⟩
        rw [State.step, hr, Option.bind_some, State.stepReader, if_pos hlife]
        refine runReader_isSome hpc ?_
        rintro ⟨ops, next, -, hsleep⟩
        exact State.semop_ne_sleep hnone _ _ hsleep

/-! ## From the removal on -/

/-- The set is gone in `t`, and whoever is at its end there was so in `s`. -/
structure State.Since (s t : State) : Prop where
  gone : t.sems = none
  inside : t.Inside
  writers : ∀ (i : Nat) (w' : Writer), t.writers[i]? = some w' → w'.pc.phase = .ended →
    ∃ w, s.writers[i]? = some w ∧ w.pc.phase = .ended
  readers : ∀ (j : Nat) (r' : Reader), t.readers[j]? = some r' → ∃ r, s.readers[j]? = some r ∧
    (r'.pc.leftLoop = true → r.pc.leftLoop = true) ∧
      (r.pc ≠ .load ∧ r.pc ≠ .write → r'.out = r.out ∧ r'.pc ≠ .load ∧ r'.pc ≠ .write)

theorem State.Since.start (hnone : s.sems = none) (hin : s.Inside) : s.Since s where
  gone := hnone
  inside := hin
  writers _ w' hw' hended := ⟨w', hw', hended⟩
  readers _ r' hr' := ⟨r', hr', id, fun hpc => ⟨rfl, hpc⟩⟩

theorem State.Since.step {u : State} (h : s.Since t) (hs : Steps t e u) : s.Since u where
  gone := hs.gone h.gone
  inside := h.inside.step hs
  writers i w' hw' hended := by
    obtain ⟨w, hw, hnext⟩ := hs.writer_next hw'
    exact h.writers i w hw (hnext.removed h.gone hended)
  readers j r' hr' := by
    obtain ⟨r₁, hr₁, hnext⟩ := hs.reader_next hr'
    obtain ⟨hleft, hout⟩ := hnext.removed h.gone
    obtain ⟨r, hr, hleft₁, hout₁⟩ := h.readers j r₁ hr₁
    refine ⟨r, hr, fun hl => hleft₁ (hleft hl), fun hpc => ?_⟩
    obtain ⟨hsame₁, hpc₁⟩ := hout₁ hpc
    obtain ⟨hsame, hpc'⟩ := hout hpc₁
    exact ⟨hsame.trans hsame₁, hpc'⟩

theorem inside_of_run (h : Run State.step Always (State.start files n len data) es s) :
    s.Inside := by
  have hstart : (State.start files n len data).Inside := by
    intro w hw
    obtain ⟨f, -, rfl⟩ := List.mem_map.mp hw
    exact Nat.zero_le _
  exact h.invariant hstart fun _ _ _ hin _ hst => hin.step (step_steps hst)

/-- **The removal of the set ends everything.** Whatever state it comes upon, from there on every
    run is short, as long as somebody is left somebody can go on by itself, and nobody returns that
    was not through its last operation; a reader that does not hold a block, because it is neither
    before its load nor before its `write`, puts out nothing any more. -/
theorem removed_run (h : Run State.step Always (State.start files n len data) es s)
    (hnone : s.sems = none) (hr : Run State.step Always s fs t) :
    fs.length ≤ 5 * (s.writers.length + s.readers.length) ∧
      ((∃ w ∈ t.writers, w.task.live = true) ∨ (∃ r ∈ t.readers, r.task.live = true) →
        ∃ e, e.own = true ∧ (t.step e).isSome = true) ∧
      (∀ (i : Nat) (w' : Writer), t.writers[i]? = some w' → w'.pc = .returned →
        ∃ w, s.writers[i]? = some w ∧ w.pc.phase = .ended) ∧
      ∀ (j : Nat) (r' : Reader), t.readers[j]? = some r' → ∃ r, s.readers[j]? = some r ∧
        (r'.pc = .returned → r.pc.leftLoop = true) ∧
          (r.pc ≠ .load ∧ r.pc ≠ .write → r'.out = r.out) := by
  have hstart := State.Since.start hnone (inside_of_run h)
  have hstep : ∀ t e u, s.Since t → Always t e → t.step e = some u →
      s.Since u ∧ u.left < t.left :=
    fun _ _ _ hs _ hst => ⟨hs.step (step_steps hst), (step_steps hst).left_lt hs.gone⟩
  have hsince : s.Since t := hr.invariant hstart fun t e u hs hok hst => (hstep t e u hs hok hst).1
  refine ⟨(Run.length_le hstart hstep hr).trans s.left_le,
    fun hlive => State.goesOn hsince.gone hsince.inside hlive, fun i w' hw' hpc => ?_,
    fun j r' hr' => ?_⟩
  · exact hsince.writers i w' hw' (by rw [hpc]; rfl)
  · obtain ⟨r, hr, hleft, hout⟩ := hsince.readers j r' hr'
    exact ⟨r, hr, fun hpc => hleft (by rw [hpc]; rfl), fun hne => (hout hne).1⟩

/-- An empty file, two readers, and the second asleep while the writer removes the set. -/
def removingRun : List Event :=
  reads 0 4 ++ writes 0 4 ++ reads 0 1 ++ writes 0 8 ++ reads 0 5 ++ reads 1 1 ++ writes 0 5

/-- The second reader is woken and fails, and the theorem says that it has put out nothing by that.
    -/
theorem removed_run_asleep : ∃ s t,
    Run State.step Always (State.start [[]] 2 0 []) removingRun s ∧
      Run State.step Always s (reads 1 1) t ∧ s.sems = none ∧
      ∀ (j : Nat) (r' : Reader), t.readers[j]? = some r' → ∃ r, s.readers[j]? = some r ∧
        (r'.pc = .returned → r.pc.leftLoop = true) ∧
          (r.pc ≠ .load ∧ r.pc ≠ .write → r'.out = r.out) := by
  have hexec : (exec State.step Always removingRun (State.start [[]] 2 0 [])).any
      (fun s => s.sems.isNone && (exec State.step Always (reads 1 1) s).isSome) = true := by
    decide
  obtain ⟨s, hrun, hany⟩ := Run.exists_of_exec hexec
  obtain ⟨hnone, hsome⟩ := Bool.and_eq_true_iff.mp hany
  have hgone : s.sems = none := Option.isNone_iff_eq_none.mp hnone
  obtain ⟨t, ht⟩ := Option.isSome_iff_exists.mp hsome
  have hrest := Run.of_exec ht
  exact ⟨s, t, hrun, hrest, hgone, (removed_run hrun hgone hrest).2.2.2⟩

end CompTech.Sharmem
