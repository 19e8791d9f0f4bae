import CompTech.Sharmem.Transfer

/-!
# One process in a step

A step seen from one process: `WriterNext` and `ReaderNext` say what it may have become, whoever
moves. A process that stands still keeps everything but its task, which may have been cleared, have
failed or be gone (`Task.Later`); the rest is what a process that runs can do. An invariant that
speaks of each process for itself is proved over these cases, without asking which process it was.
-/

namespace CompTech.Sharmem

open Lib

variable {s t : State} {v v' : SEM → Nat} {i j k : Nat} {w w' : Writer} {r r' : Reader} {e : Event}

/-- What may become of a task that is not running its program. -/
def Task.Later (k k' : Task) : Prop :=
  k'.life = k.life ∨ (k.life = .running ∧ k'.life = .failing) ∨ k'.life = .dead

theorem Task.Later.rfl {k : Task} : k.Later k := .inl (Eq.refl _)

/-- Whoever runs afterwards ran before; failures and deaths are for good. -/
theorem Task.Later.running {k k' : Task} (h : k.Later k') (hrun : k'.life = .running) :
    k.life = .running := by
  rcases h with h | ⟨-, h⟩ | h
  · rw [← h, hrun]
  · rw [h] at hrun
    cases hrun
  · rw [h] at hrun
    cases hrun

/-- Whoever is there afterwards was there before. -/
theorem Task.Later.live {k k' : Task} (h : k.Later k') (hlive : k'.live = true) :
    k.live = true := by
  have hne : k'.life ≠ .dead := of_decide_eq_true hlive
  rcases h with h | ⟨h, -⟩ | h
  · exact Task.live_of_ne (h ▸ hne)
  · exact Task.live_running h
  · exact absurd h hne

/-- What a writer of `s` may be in `t`. The state afterwards is there for the length in the page
    only, which the writer's own store changes. -/
inductive WriterNext (s t : State) (w : Writer) : Writer → Prop
  | still {k : Task} : w.task.Later k → WriterNext s t w { w with task := k }
  | op {ops : List (Sembuf SEM)} {next : WriterPc} {v v' : SEM → Nat} {adj : SEM → Int} :
      w.task.life = .running → WriterOp w.pc ops next →
      (w.pc = .vFull → (next = .pEmpty ↔ 0 < w.numSymb)) → s.sems = some v →
      semop ops v w.task.adj = .done v' adj →
      WriterNext s t w { w with task := { w.task with adj := adj, asleep := false }, pc := next }
  | setval : w.task.life = .running → w.pc = .setvalFull →
      WriterNext s t w { w.clear .full with pc := .syncRead }
  | own {w' : Writer} {shmLen : Nat} {shmData : List Byte} : w.task.life = .running →
      WriterLocal s w w' shmLen shmData → t.shmLen = shmLen → WriterNext s t w w'
  | remove : w.task.life = .running → w.pc = .deleteSem →
      WriterNext s t w { w with pc := .returned }

/-- What a reader may be after the step. A `write` that fails has put out the first `n` bytes of its
    block (`cut`). -/
inductive ReaderNext (s : State) (r : Reader) : Reader → Prop
  | still {k : Task} : r.task.Later k → ReaderNext s r { r with task := k }
  | op {ops : List (Sembuf SEM)} {next : ReaderPc} {v v' : SEM → Nat} {adj : SEM → Int} :
      r.task.life = .running → ReaderOp r.pc ops next →
      (r.pc = .vEmpty → (next = .pFull ↔ 0 < r.numSymb)) → s.sems = some v →
      semop ops v r.task.adj = .done v' adj →
      ReaderNext s r { r with task := { r.task with adj := adj, asleep := false }, pc := next }
  | setval : r.task.life = .running → r.pc = .setvalEmpty →
      ReaderNext s r { r.clear .empty with pc := .syncWrite }
  | own {r' : Reader} : r.task.life = .running → ReaderLocal s r r' → ReaderNext s r r'
  | cut (n : Nat) : r.task.life = .running → r.pc = .write →
      ReaderNext s r { r.fail with out := r.out ++ (s.outBlock r).take n }
  | endGone : r.task.life = .running → r.pc = .endRd → ReaderNext s r { r with pc := .unlinkShm }

/-! ## Every step is one for each process -/

theorem WriterNext.refl (s t : State) (w : Writer) : WriterNext s t w w := .still Task.Later.rfl

theorem ReaderNext.refl (s : State) (r : Reader) : ReaderNext s r r := .still Task.Later.rfl

/-- A step that sets writer `i`, seen from writer `k`. -/
theorem writer_of_set (hw : s.writers[i]? = some w) (hnext : WriterNext s t w w')
    (hws : t.writers = s.writers.set i w') {w₂ : Writer} (hw₂ : t.writers[k]? = some w₂) :
    ∃ w₁, s.writers[k]? = some w₁ ∧ WriterNext s t w₁ w₂ := by
  rw [hws] at hw₂
  rcases getElem?_set_eq_some hw₂ with ⟨rfl, rfl⟩ | ⟨-, hold⟩
  · exact ⟨w, hw, hnext⟩
  · exact ⟨w₂, hold, .refl s t w₂⟩

/-- A step that sets reader `j`, seen from reader `k`. -/
theorem reader_of_set (hr : s.readers[j]? = some r) (hnext : ReaderNext s r r')
    (hrs : t.readers = s.readers.set j r') {r₂ : Reader} (hr₂ : t.readers[k]? = some r₂) :
    ∃ r₁, s.readers[k]? = some r₁ ∧ ReaderNext s r₁ r₂ := by
  rw [hrs] at hr₂
  rcases getElem?_set_eq_some hr₂ with ⟨rfl, rfl⟩ | ⟨-, hold⟩
  · exact ⟨r, hr, hnext⟩
  · exact ⟨r₂, hold, .refl s r₂⟩

/-- A `SETVAL` of another process, seen from writer `k`. -/
theorem writer_of_clear {sem : SEM} {w₂ : Writer}
    (hw₂ : (s.writers.map (·.clear sem))[k]? = some w₂) :
    ∃ w₁, s.writers[k]? = some w₁ ∧ WriterNext s t w₁ w₂ := by
  rw [List.getElem?_map] at hw₂
  obtain ⟨w₁, hw₁, rfl⟩ := Option.map_eq_some_iff.mp hw₂
  exact ⟨w₁, hw₁, .still (.inl rfl)⟩

/-- A `SETVAL` of another process, seen from reader `k`. -/
theorem reader_of_clear {sem : SEM} {r₂ : Reader}
    (hr₂ : (s.readers.map (·.clear sem))[k]? = some r₂) :
    ∃ r₁, s.readers[k]? = some r₁ ∧ ReaderNext s r₁ r₂ := by
  rw [List.getElem?_map] at hr₂
  obtain ⟨r₁, hr₁, rfl⟩ := Option.map_eq_some_iff.mp hr₂
  exact ⟨r₁, hr₁, .still (.inl rfl)⟩

/-- **Every step is one for each writer.** -/
theorem Steps.writer_next (hs : Steps s e t) {w₂ : Writer} (hw₂ : t.writers[k]? = some w₂) :
    ∃ w₁, s.writers[k]? = some w₁ ∧ WriterNext s t w₁ w₂ := by
  cases hs with
  | @writerMove i n w _ hw hrun hm =>
    cases hm with
    | semop hop hn hv hd => exact writer_of_set hw (.op hrun hop hn hv hd) rfl hw₂
    | @setval v hpc hv =>
      rcases getElem?_set_eq_some hw₂ with ⟨rfl, rfl⟩ | ⟨-, hold⟩
      · exact ⟨w, hw, .setval hrun hpc⟩
      · exact writer_of_clear hold
    | quiet hl => exact writer_of_set hw (.own hrun hl rfl) rfl hw₂
    | fail => exact writer_of_set hw (.still (.inr (.inl ⟨hrun, rfl⟩))) rfl hw₂
    | remove hpc => exact writer_of_set hw (.remove hrun hpc) rfl hw₂
  | writerErr hw hrun => exact writer_of_set hw (.still (.inr (.inl ⟨hrun, rfl⟩))) rfl hw₂
  | writerExit hw => exact writer_of_set hw (.still (.inr (.inr rfl))) rfl hw₂
  | readerMove hr hrun hm =>
    cases hm with
    | setval => exact writer_of_clear hw₂
    | _ => exact ⟨w₂, hw₂, .refl _ _ w₂⟩
  | readerErr =>
    unfold State.failReader at hw₂
    split at hw₂ <;> exact ⟨w₂, hw₂, .refl _ _ w₂⟩
  | readerExit => exact ⟨w₂, hw₂, .refl _ _ w₂⟩

/-- **Every step is one for each reader.** -/
theorem Steps.reader_next (hs : Steps s e t) {r₂ : Reader} (hr₂ : t.readers[k]? = some r₂) :
    ∃ r₁, s.readers[k]? = some r₁ ∧ ReaderNext s r₁ r₂ := by
  cases hs with
  | writerMove hw hrun hm =>
    cases hm with
    | setval => exact reader_of_clear hr₂
    | _ => exact ⟨r₂, hr₂, .refl s r₂⟩
  | writerErr => exact ⟨r₂, hr₂, .refl s r₂⟩
  | writerExit => exact ⟨r₂, hr₂, .refl s r₂⟩
  | @readerMove j n r _ hr hrun hm =>
    cases hm with
    | semop hop hn hv hd => exact reader_of_set hr (.op hrun hop hn hv hd) rfl hr₂
    | @setval v hpc hv =>
      rcases getElem?_set_eq_some hr₂ with ⟨rfl, rfl⟩ | ⟨-, hold⟩
      · exact ⟨r, hr, .setval hrun hpc⟩
      · exact reader_of_clear hold
    | quiet hl => exact reader_of_set hr (.own hrun hl) rfl hr₂
    | fail => exact reader_of_set hr (.still (.inr (.inl ⟨hrun, rfl⟩))) rfl hr₂
    | endGone hpc => exact reader_of_set hr (.endGone hrun hpc) rfl hr₂
  | @readerErr j n r hr hrun =>
    unfold State.failReader at hr₂
    split at hr₂
    · rename_i hpc
      exact reader_of_set hr (.cut n hrun hpc) rfl hr₂
    · exact reader_of_set hr (.still (.inr (.inl ⟨hrun, rfl⟩))) rfl hr₂
  | readerExit hr => exact reader_of_set hr (.still (.inr (.inr rfl))) rfl hr₂

/-- Only a writer that stores changes the length in the page. -/
theorem Steps.shmLen (hs : Steps s e t) : t.shmLen = s.shmLen ∨
    ∃ (i : Nat) (w : Writer), s.writers[i]? = some w ∧ w.task.life = .running ∧
      w.pc = .storeNumSymb := by
  cases hs with
  | writerMove hw hrun hm =>
    cases hm with
    | quiet hl =>
      cases hl with
      | storeNumSymb hpc => exact .inr ⟨_, _, hw, hrun, hpc⟩
      | _ => exact .inl rfl
    | _ => exact .inl rfl
  | readerMove hr hrun hm => cases hm <;> exact .inl rfl
  | readerErr =>
    unfold State.failReader
    split <;> exact .inl rfl
  | _ => exact .inl rfl

/-- Nothing is taken back from the output. -/
theorem ReaderNext.out (h : ReaderNext s r r') : r.out <+: r'.out := by
  cases h with
  | own _ hl =>
    cases hl with
    | write => exact List.prefix_append _ _
    | _ => exact List.prefix_rfl
  | cut => exact List.prefix_append _ _
  | _ => exact List.prefix_rfl

/-- Nobody is added or removed; who is gone stays in the list. -/
theorem Steps.readers_length (hs : Steps s e t) : t.readers.length = s.readers.length := by
  cases hs with
  | writerMove hw hrun hm =>
    cases hm with
    | setval => exact List.length_map _
    | _ => rfl
  | writerErr => rfl
  | writerExit => rfl
  | readerMove hr hrun hm =>
    cases hm with
    | setval => exact List.length_set.trans (List.length_map _)
    | _ => exact List.length_set
  | readerErr =>
    unfold State.failReader
    split <;> exact List.length_set
  | readerExit => exact List.length_set

/-- What the readers have put out stays put out. -/
theorem Steps.out_mono (hs : Steps s e t) {f : List Byte} (h : ∃ r ∈ s.readers, f <+: r.out) :
    ∃ r ∈ t.readers, f <+: r.out := by
  obtain ⟨r, hr, hf⟩ := h
  obtain ⟨j, hj, hget⟩ := List.mem_iff_getElem.mp hr
  have hj' : j < t.readers.length := hs.readers_length.symm ▸ hj
  obtain ⟨r₁, hr₁, hnext⟩ := hs.reader_next (List.getElem?_eq_getElem hj')
  obtain rfl : r = r₁ := by
    rw [List.getElem?_eq_getElem hj, hget] at hr₁
    exact Option.some_inj.mp hr₁
  exact ⟨_, List.getElem_mem hj', hf.trans hnext.out⟩

end CompTech.Sharmem
