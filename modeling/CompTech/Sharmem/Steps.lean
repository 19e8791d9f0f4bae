import CompTech.Sharmem.Phases

/-!
# What a step can do

The inversion of the two programs, once: a process that runs either completes one of its
semaphore operations (`WriterOp`, `ReaderOp` list them), sets its slot, does something of its
own that no semaphore sees (`WriterLocal`, `ReaderLocal`), fails, or — a writer at the very end —
removes the set. Everything proved about a step is proved about these cases.

Each of the lists says all that the case does: the state afterwards is written out, and what had to
hold before is among the arguments. So a proof about a step takes one of these relations apart and
never looks into `runWriter` or `runReader` again, and a change in the order of the calls of one
program is a change in its list and in one proof here. A `WriterOp` carries the operation and the
next place only, which is enough for all that concerns the semaphores; whether `vFull` goes back
into the loop is a condition of `WriterMove.semop`.
-/

namespace CompTech.Sharmem

open Lib

/-! ## The writer

The order of the constructors is the order of the calls in the source. What a completed operation
changes of the semaphores is not said here but by `semop` itself, which is a function. -/

/-- The operations of the writer: where, which, and where it goes on. -/
inductive WriterOp : WriterPc → List (Sembuf SEM) → WriterPc → Prop
  | alone : WriterOp .aloneWr Wr.alone .waitPrevConnect
  | wait : WriterOp .waitPrevConnect waitPrevConnect .setvalFull
  | syncRead : WriterOp .syncRead Wr.syncRead .syncWrite
  | syncWrite : WriterOp .syncWrite Wr.syncWrite .openFile
  | pEmpty : WriterOp .pEmpty Wr.pEmpty .checkNumProc
  | check : WriterOp .checkNumProc checkNumProc .read
  | vFull : WriterOp .vFull Wr.vFull .pEmpty
  | vFullLast : WriterOp .vFull Wr.vFull .closeFile
  | endWr : WriterOp .endWr Wr.endWr .unlinkShm

/-- What the writer does without the semaphores: the writer and the page afterwards. -/
inductive WriterLocal (s : State) (w : Writer) : Writer → Nat → List Byte → Prop
  | sleep {ops : List (Sembuf SEM)} {next : WriterPc} : WriterOp w.pc ops next →
      s.semop w.task ops = .sleep → w.task.asleep = false →
      WriterLocal s w { w with task := w.task.sleep } s.shmLen s.shmData
  | openFile : w.pc = .openFile → WriterLocal s w { w with pc := .pEmpty } s.shmLen s.shmData
  | read (k : Nat) : w.pc = .read → w.pos + k ≤ w.file.length →
      (k = 0 → w.pos = w.file.length) →
      WriterLocal s w
        { w with
          pc := .memcpy
          pos := w.pos + k
          tmpBuf := (w.file.drop w.pos).take k
          numSymb := k }
        s.shmLen s.shmData
  | memcpy : w.pc = .memcpy → WriterLocal s w { w with pc := .storeNumSymb } s.shmLen
      (w.tmpBuf ++ List.replicate (blockSize - w.tmpBuf.length) 0)
  | storeNumSymb : w.pc = .storeNumSymb →
      WriterLocal s w { w with pc := .vFull, tmpBuf := [] } w.numSymb.toNat s.shmData
  | closeFile : w.pc = .closeFile → WriterLocal s w { w with pc := .endWr } s.shmLen s.shmData
  | unlinkShm : w.pc = .unlinkShm → WriterLocal s w { w with pc := .deleteShm } s.shmLen s.shmData
  | deleteShm : w.pc = .deleteShm → WriterLocal s w { w with pc := .deleteSem } s.shmLen s.shmData

/-- Why a call of the writer fails. -/
inductive WriterFails (s : State) (w : Writer) : Prop
  | semop {ops : List (Sembuf SEM)} {next : WriterPc} {e : SemErr} : WriterOp w.pc ops next →
      s.semop w.task ops = .error e → WriterFails s w
  | setval : w.pc = .setvalFull → s.sems = none → WriterFails s w

/-- What a writer that runs can make of the state: one constructor for each kind of step. -/
inductive WriterMove (s : State) (i : Nat) (w : Writer) : State → Prop
  | semop {ops : List (Sembuf SEM)} {next : WriterPc} {v v' : SEM → Nat} {adj : SEM → Int} :
      WriterOp w.pc ops next → (w.pc = .vFull → (next = .pEmpty ↔ 0 < w.numSymb)) →
      s.sems = some v → semop ops v w.task.adj = .done v' adj →
      WriterMove s i w ({ s with sems := some v' }.setWriter i
        { w with task := { w.task with adj := adj, asleep := false }, pc := next })
  | setval {v : SEM → Nat} : w.pc = .setvalFull → s.sems = some v →
      WriterMove s i w ((s.setvalAll v .full 0).setWriter i { w.clear .full with pc := .syncRead })
  | quiet {w' : Writer} {shmLen : Nat} {shmData : List Byte} : WriterLocal s w w' shmLen shmData →
      WriterMove s i w ({ s with shmLen := shmLen, shmData := shmData }.setWriter i w')
  | fail : WriterFails s w → WriterMove s i w (s.setWriter i w.fail)
  -- nobody else does that
  | remove : w.pc = .deleteSem →
      WriterMove s i w ({ s with sems := none }.setWriter i { w with pc := .returned })

variable {s s' : State} {i j k : Nat} {w : Writer} {r : Reader}

/-- A call that is done has found a set, and has left the process awake with new adjustments. -/
theorem State.semop_done {t t' : Task} {ops : List (Sembuf SEM)} {v' : SEM → Nat}
    (h : s.semop t ops = .done v' t') : ∃ v adj, s.sems = some v ∧
      Lib.semop ops v t.adj = .done v' adj ∧ t' = { t with adj := adj, asleep := false } := by
  unfold State.semop at h
  split at h
  · cases h
  · rename_i v hv
    split at h
    · rename_i v'' adj hdone
      cases h
      exact ⟨v, adj, hv, hdone, rfl⟩
    · cases h
    · cases h

/-- One call of `semop` of the writer is one of three cases: it is done, it puts the writer to
    sleep, or it fails. -/
theorem writerSemop_move {ops : List (Sembuf SEM)} {next : WriterPc} (ho : WriterOp w.pc ops next)
    (hn : w.pc = .vFull → (next = .pEmpty ↔ 0 < w.numSymb))
    (h : s.writerSemop i w ops next = some s') : WriterMove s i w s' := by
  unfold State.writerSemop at h
  split at h
  · rename_i hcall
    obtain ⟨v, adj, hv, hdone, rfl⟩ := State.semop_done hcall
    cases h
    exact .semop ho hn hv hdone
  · rename_i hcall
    split at h
    · cases h
    · rename_i hawake
      cases h
      exact .quiet (.sleep ho hcall (Bool.eq_false_iff.mpr hawake))
  · rename_i e hcall
    cases h
    exact .fail (.semop ho hcall)

/-- **Inversion of the writer.** One case for each place it can stand at. -/
theorem runWriter_move (h : s.runWriter i w k = some s') : WriterMove s i w s' := by
  have hne : ∀ {pc : WriterPc}, w.pc = pc → pc ≠ .vFull → ∀ {P : Prop}, w.pc = .vFull → P :=
    fun hpc hn _ hv => absurd (hpc.symm.trans hv) hn
  unfold State.runWriter at h
  split at h
  · rename_i hpc; exact writerSemop_move (hpc ▸ .alone) (hne hpc (by decide)) h
  · rename_i hpc; exact writerSemop_move (hpc ▸ .wait) (hne hpc (by decide)) h
  · rename_i hpc
    split at h
    · rename_i hnone
      cases h
      exact .fail (.setval hpc hnone)
    · rename_i v hv
      cases h
      exact .setval hpc hv
  · rename_i hpc; exact writerSemop_move (hpc ▸ .syncRead) (hne hpc (by decide)) h
  · rename_i hpc; exact writerSemop_move (hpc ▸ .syncWrite) (hne hpc (by decide)) h
  · rename_i hpc; cases h; exact .quiet (.openFile hpc)
  · rename_i hpc; exact writerSemop_move (hpc ▸ .pEmpty) (hne hpc (by decide)) h
  · rename_i hpc; exact writerSemop_move (hpc ▸ .check) (hne hpc (by decide)) h
  · rename_i hpc
    split at h
    · rename_i hk
      cases h
      exact .quiet (.read k hpc hk.2.1 hk.2.2)
    · cases h
  · rename_i hpc; cases h; exact .quiet (.memcpy hpc)
  · rename_i hpc; cases h; exact .quiet (.storeNumSymb hpc)
  · rename_i hpc
    by_cases hpos : w.numSymb > 0
    · rw [if_pos hpos] at h
      exact writerSemop_move (hpc ▸ .vFull) (fun _ => ⟨fun _ => hpos, fun _ => rfl⟩) h
    · rw [if_neg hpos] at h
      exact writerSemop_move (hpc ▸ .vFullLast)
        (fun _ => ⟨fun hc => WriterPc.noConfusion hc, fun hc => absurd hc hpos⟩) h
  · rename_i hpc; cases h; exact .quiet (.closeFile hpc)
  · rename_i hpc; exact writerSemop_move (hpc ▸ .endWr) (hne hpc (by decide)) h
  · rename_i hpc; cases h; exact .quiet (.unlinkShm hpc)
  · rename_i hpc; cases h; exact .quiet (.deleteShm hpc)
  · rename_i hpc; cases h; exact .remove hpc
  · cases h

/-! ## The reader

The reader's lists have the same form. The one thing without a counterpart is the last operation: a
set that is gone is an error everywhere else, and there it is what the reader expects. -/

/-- The operations of the reader. -/
inductive ReaderOp : ReaderPc → List (Sembuf SEM) → ReaderPc → Prop
  | alone : ReaderOp .aloneRd Rd.alone .waitPrevConnect
  | wait : ReaderOp .waitPrevConnect waitPrevConnect .setvalEmpty
  | syncWrite : ReaderOp .syncWrite Rd.syncWrite .syncRead
  | syncRead : ReaderOp .syncRead Rd.syncRead .pFull
  | pFull : ReaderOp .pFull Rd.pFull .checkNumProc
  | check : ReaderOp .checkNumProc checkNumProc .load
  | vEmpty : ReaderOp .vEmpty Rd.vEmpty .pFull
  | vEmptyLast : ReaderOp .vEmpty Rd.vEmpty .endRd
  | endRd : ReaderOp .endRd Rd.endRd .unlinkShm

/-- What the reader does without the semaphores. It only looks at the page, so the state afterwards
    has another reader and nothing else. -/
inductive ReaderLocal (s : State) (r : Reader) : Reader → Prop
  | sleep {ops : List (Sembuf SEM)} {next : ReaderPc} : ReaderOp r.pc ops next →
      s.semop r.task ops = .sleep → r.task.asleep = false →
      ReaderLocal s r { r with task := r.task.sleep }
  | load : r.pc = .load → ReaderLocal s r { r with pc := .write, numSymb := s.shmLen }
  | write : r.pc = .write → ReaderLocal s r { r with pc := .vEmpty, out := r.out ++ s.outBlock r }
  | unlinkShm : r.pc = .unlinkShm → ReaderLocal s r { r with pc := .returned }

/-- Why a call of the reader fails; the last operation takes a set that is gone for success. -/
inductive ReaderFails (s : State) (r : Reader) : Prop
  | semop {ops : List (Sembuf SEM)} {next : ReaderPc} {e : SemErr} : ReaderOp r.pc ops next →
      s.semop r.task ops = .error e → ¬(r.pc = .endRd ∧ e = .einval) → ReaderFails s r
  | setval : r.pc = .setvalEmpty → s.sems = none → ReaderFails s r

/-- What a reader that runs can make of the state. -/
inductive ReaderMove (s : State) (j : Nat) (r : Reader) : State → Prop
  | semop {ops : List (Sembuf SEM)} {next : ReaderPc} {v v' : SEM → Nat} {adj : SEM → Int} :
      ReaderOp r.pc ops next → (r.pc = .vEmpty → (next = .pFull ↔ 0 < r.numSymb)) →
      s.sems = some v → semop ops v r.task.adj = .done v' adj →
      ReaderMove s j r ({ s with sems := some v' }.setReader j
        { r with task := { r.task with adj := adj, asleep := false }, pc := next })
  | setval {v : SEM → Nat} : r.pc = .setvalEmpty → s.sems = some v →
      ReaderMove s j r
        ((s.setvalAll v .empty 1).setReader j { r.clear .empty with pc := .syncWrite })
  | quiet {r' : Reader} : ReaderLocal s r r' → ReaderMove s j r (s.setReader j r')
  | fail : ReaderFails s r → ReaderMove s j r (s.setReader j r.fail)
  -- the set is gone
  | endGone : r.pc = .endRd → s.sems = none →
      ReaderMove s j r (s.setReader j { r with pc := .unlinkShm })

/-- The identifier is bad only where there is no set. -/
theorem State.semop_einval {t : Task} {ops : List (Sembuf SEM)}
    (h : s.semop t ops = .error .einval) : s.sems = none := by
  unfold State.semop at h
  split at h
  · assumption
  · rename_i v hv
    split at h
    · cases h
    · cases h
    · rename_i e hfail
      cases h
      exact absurd hfail (semop_ne_einval ops v t.adj)

theorem readerSemop_move {ops : List (Sembuf SEM)} {next : ReaderPc} (ho : ReaderOp r.pc ops next)
    (hn : r.pc = .vEmpty → (next = .pFull ↔ 0 < r.numSymb))
    (h : s.readerSemop j r ops next = some s') : ReaderMove s j r s' := by
  unfold State.readerSemop at h
  split at h
  · rename_i hcall
    obtain ⟨v, adj, hv, hdone, rfl⟩ := State.semop_done hcall
    cases h
    exact .semop ho hn hv hdone
  · rename_i hcall
    split at h
    · cases h
    · rename_i hawake
      cases h
      exact .quiet (.sleep ho hcall (Bool.eq_false_iff.mpr hawake))
  · rename_i e hcall
    split at h
    · rename_i hend
      obtain ⟨hpc, rfl⟩ := hend
      have hnone := State.semop_einval hcall
      cases h
      rw [hpc] at ho
      cases ho
      exact .endGone hpc hnone
    · rename_i hend
      cases h
      exact .fail (.semop ho hcall hend)

/-- **Inversion of the reader.** -/
theorem runReader_move (h : s.runReader j r = some s') : ReaderMove s j r s' := by
  have hne : ∀ {pc : ReaderPc}, r.pc = pc → pc ≠ .vEmpty → ∀ {P : Prop}, r.pc = .vEmpty → P :=
    fun hpc hn _ hv => absurd (hpc.symm.trans hv) hn
  unfold State.runReader at h
  split at h
  · rename_i hpc; exact readerSemop_move (hpc ▸ .alone) (hne hpc (by decide)) h
  · rename_i hpc; exact readerSemop_move (hpc ▸ .wait) (hne hpc (by decide)) h
  · rename_i hpc
    split at h
    · rename_i hnone
      cases h
      exact .fail (.setval hpc hnone)
    · rename_i v hv
      cases h
      exact .setval hpc hv
  · rename_i hpc; exact readerSemop_move (hpc ▸ .syncWrite) (hne hpc (by decide)) h
  · rename_i hpc; exact readerSemop_move (hpc ▸ .syncRead) (hne hpc (by decide)) h
  · rename_i hpc; exact readerSemop_move (hpc ▸ .pFull) (hne hpc (by decide)) h
  · rename_i hpc; exact readerSemop_move (hpc ▸ .check) (hne hpc (by decide)) h
  · rename_i hpc; cases h; exact .quiet (.load hpc)
  · rename_i hpc; cases h; exact .quiet (.write hpc)
  · rename_i hpc
    by_cases hpos : r.numSymb > 0
    · rw [if_pos hpos] at h
      exact readerSemop_move (hpc ▸ .vEmpty) (fun _ => ⟨fun _ => hpos, fun _ => rfl⟩) h
    · rw [if_neg hpos] at h
      exact readerSemop_move (hpc ▸ .vEmptyLast)
        (fun _ => ⟨fun hc => ReaderPc.noConfusion hc, fun hc => absurd hc hpos⟩) h
  · rename_i hpc; exact readerSemop_move (hpc ▸ .endRd) (hne hpc (by decide)) h
  · rename_i hpc; cases h; exact .quiet (.unlinkShm hpc)
  · cases h

/-! ## The system

An event that is possible is one of six: for each side a move, a call that fails on its own account,
and an end, by `exit` or by a signal. -/

/-- What an event comes to, and whose. -/
inductive Steps (s : State) : Event → State → Prop
  | writerMove {i k : Nat} {w : Writer} {s' : State} : s.writers[i]? = some w →
      w.task.life = .running → WriterMove s i w s' → Steps s (.writer i (.run k)) s'
  | writerErr {i k : Nat} {w : Writer} : s.writers[i]? = some w → w.task.life = .running →
      Steps s (.writer i (.err k)) (s.setWriter i w.fail)
  | writerExit {i : Nat} {a : Act} {w : Writer} : s.writers[i]? = some w → w.task.life ≠ .dead →
      a = .exit ∧ (w.task.life = .failing ∨ w.pc = .returned) ∨ a = .kill →
      Steps s (.writer i a) (s.exitWriter i w)
  | readerMove {j k : Nat} {r : Reader} {s' : State} : s.readers[j]? = some r →
      r.task.life = .running → ReaderMove s j r s' → Steps s (.reader j (.run k)) s'
  | readerErr {j k : Nat} {r : Reader} : s.readers[j]? = some r → r.task.life = .running →
      Steps s (.reader j (.err k)) (s.failReader j r k)
  | readerExit {j : Nat} {a : Act} {r : Reader} : s.readers[j]? = some r → r.task.life ≠ .dead →
      a = .exit ∧ (r.task.life = .failing ∨ r.pc = .returned) ∨ a = .kill →
      Steps s (.reader j a) (s.exitReader j r)

/-- **Inversion of the system.** Every event is a move, a failure or an end of the one process it
    names. -/
theorem step_steps {e : Event} (h : s.step e = some s') : Steps s e s' := by
  cases e with
  | writer i a =>
    obtain ⟨w, hw, hst⟩ := Option.bind_eq_some_iff.mp h
    cases a with
    | run k =>
      simp only [State.stepWriter] at hst
      split at hst
      · rename_i hrun
        exact .writerMove hw hrun (runWriter_move hst)
      · cases hst
    | err k =>
      simp only [State.stepWriter] at hst
      split at hst
      · rename_i hrun
        cases hst
        exact .writerErr hw hrun.1
      · cases hst
    | exit =>
      simp only [State.stepWriter] at hst
      split at hst
      · rename_i hend
        cases hst
        refine .writerExit hw ?_ (.inl ⟨rfl, hend.imp_right And.right⟩)
        rcases hend with hf | ⟨hr, -⟩
        · rw [hf]; decide
        · rw [hr]; decide
      · cases hst
    | kill =>
      simp only [State.stepWriter] at hst
      split at hst
      · rename_i hlive
        cases hst
        exact .writerExit hw hlive (.inr rfl)
      · cases hst
  | reader j a =>
    obtain ⟨r, hr, hst⟩ := Option.bind_eq_some_iff.mp h
    cases a with
    | run k =>
      simp only [State.stepReader] at hst
      split at hst
      · rename_i hrun
        exact .readerMove hr hrun (runReader_move hst)
      · cases hst
    | err k =>
      simp only [State.stepReader] at hst
      split at hst
      · rename_i hrun
        cases hst
        exact .readerErr hr hrun.1
      · cases hst
    | exit =>
      simp only [State.stepReader] at hst
      split at hst
      · rename_i hend
        cases hst
        refine .readerExit hr ?_ (.inl ⟨rfl, hend.imp_right And.right⟩)
        rcases hend with hf | ⟨hr, -⟩
        · rw [hf]; decide
        · rw [hr]; decide
      · cases hst
    | kill =>
      simp only [State.stepReader] at hst
      split at hst
      · rename_i hlive
        cases hst
        exact .readerExit hr hlive (.inr rfl)
      · cases hst

end CompTech.Sharmem
