import CompTech.Sharmem.Accounts

/-!
# Deaths that leave a token behind

SYNC_RD and SYNC_WR are posted without `SEM_UNDO`. A process that dies between its post and the
other side's taking it leaves the token to whoever comes next on its own side, who posts a
second one. `Clean` refuses such a death: it lets a process exit while its token lies there only
when nobody of its kind is still to come. In runs of clean steps the hand-over is safe
(`Lib.Safe`), which is what the values of the slots and the order of the copies rest on.

The condition is stated with what can be seen in the state before the step: the place of the
process, the value of its token, and whether one of its kind stands in front of its first operation.
`cleanStep_writer` and `cleanStep_reader` bring it to the form in which the protocol asks for it
(`Lib.CleanStep`), in which processes are numbers in phases.
-/

namespace CompTech.Sharmem

open Lib

/-- After it the process is gone. -/
def Act.ends : Act → Bool
  | .exit | .kill => true
  | _ => false

/-- The process is in front of its first operation. -/
def Writer.toCome (w : Writer) : Bool := w.task.life = .running && w.pc = .aloneWr

/-- The process is in front of its first operation. -/
def Reader.toCome (r : Reader) : Bool := r.task.life = .running && r.pc = .aloneRd

/-- The event ends a process whose token is still there, and another of its kind is to come. -/
def State.abandons (s : State) : Event → Bool
  | .writer i a =>
    a.ends && s.writers[i]?.any (·.pc.phase.paired) &&
      s.sems.any (fun v => decide (0 < v .syncRd)) && s.writers.any Writer.toCome
  | .reader j a =>
    a.ends && s.readers[j]?.any (·.pc.phase.paired) &&
      s.sems.any (fun v => decide (0 < v .syncWr)) && s.readers.any Reader.toCome

/-- No token is abandoned. In a clean run everything else may happen, deaths included. -/
def Clean (s : State) (e : Event) : Prop := s.abandons e = false

instance (s : State) (e : Event) : Decidable (Clean s e) :=
  inferInstanceAs (Decidable (s.abandons e = false))

/-- The invariant of the counters. -/
def State.Sound (s : State) : Prop :=
  ∀ v, s.sems = some v → Accounts s v ∧ Safe initSlot (s.ctl v)

variable {s t : State} {v v' : SEM → Nat} {i j : Nat} {w w' : Writer} {r r' : Reader} {a : Act}

/-- Whoever is counted at the start runs and has not begun. -/
theorem Task.phase_start {k : Task} {p : Phase} (h : k.phase p = some .start) :
    k.life = .running ∧ p = .start := by
  unfold Task.phase at h
  cases hl : k.life with
  | running => rw [hl] at h; exact ⟨rfl, Option.some_inj.mp h⟩
  | failing =>
    rw [hl] at h
    by_cases hp : p = .start
    · rw [if_pos hp] at h
      cases h
    · rw [if_neg hp] at h
      exact absurd (Option.some_inj.mp h) hp
  | dead => rw [hl] at h; cases h

theorem phase_start_writer {pc : WriterPc} (h : pc.phase = .start) : pc = .aloneWr := by
  cases pc <;> first | rfl | cases h

theorem phase_start_reader {pc : ReaderPc} (h : pc.phase = .start) : pc = .aloneRd := by
  cases pc <;> first | rfl | cases h

/-- A phase in which a token is posted is not changed by a failure. -/
theorem paired_of_phase {p q : Phase} (hor : q = p ∨ p = .start ∧ q = .ended)
    (hq : q.paired = true) : p.paired = true := by
  rcases hor with rfl | ⟨-, rfl⟩
  · exact hq
  · cases hq

/-- A writer that exits in a clean step makes a clean step of the protocol. -/
theorem cleanStep_writer (h : Accounts s v) (hv : s.sems = some v) (hw : s.writers[i]? = some w)
    (hlive : w.task.live = true) (hends : a.ends = true) (hc : Clean s (.writer i a)) :
    CleanStep (s.ctl v) ((s.exitWriter i w).ctl v') .left := by
  obtain ⟨p, hp, hor⟩ := Task.phase_some (p := w.pc.phase) hlive
  have hget := State.writerPhases_get hw
  rw [Writer.phase, hp] at hget
  have hws : (s.exitWriter i w).writers = s.writers.set i { w with task := w.task.gone } := rfl
  have hctl : (s.exitWriter i w).ctl v' = view (s.writerPhases.set i none) s.readerPhases v' :=
    State.ctl_setWriter hws rfl
  refine CleanStep.of_death (p := p) (h.acct.le_one .left) (fun ph => ?_) fun hpair htok => ?_
  · rw [hctl]
    exact count_set_add hget ph
  · have hcome : s.writers.any Writer.toCome = false := by
      simpa [Clean, State.abandons, hends, hw, paired_of_phase hor hpair, hv,
        show 0 < v .syncRd from htok] using hc
    refine List.count_eq_zero.mpr fun hmem => ?_
    obtain ⟨w₀, hw₀, hphase⟩ := List.mem_map.mp hmem
    obtain ⟨hrun, hstart⟩ := Task.phase_start hphase
    rcases (List.mem_or_eq_of_mem_set hw₀).symm with rfl | hold
    · cases hrun
    · have hwait : w₀.toCome = true := by simp [Writer.toCome, hrun, phase_start_writer hstart]
      exact Bool.false_ne_true (hcome.symm.trans (List.any_eq_true.mpr ⟨w₀, hold, hwait⟩))

theorem cleanStep_reader (h : Accounts s v) (hv : s.sems = some v) (hr : s.readers[j]? = some r)
    (hlive : r.task.live = true) (hends : a.ends = true) (hc : Clean s (.reader j a)) :
    CleanStep (s.ctl v) ((s.exitReader j r).ctl v') .right := by
  obtain ⟨p, hp, hor⟩ := Task.phase_some (p := r.pc.phase) hlive
  have hget := State.readerPhases_get hr
  rw [Reader.phase, hp] at hget
  have hws : (s.exitReader j r).writers = s.writers := rfl
  have hrs : (s.exitReader j r).readers = s.readers.set j { r with task := r.task.gone } := rfl
  have hctl : (s.exitReader j r).ctl v' = view s.writerPhases (s.readerPhases.set j none) v' :=
    State.ctl_setReader hws hrs
  refine CleanStep.of_death (p := p) (h.acct.le_one .right) (fun ph => ?_) fun hpair htok => ?_
  · rw [hctl]
    exact count_set_add hget ph
  · have hcome : s.readers.any Reader.toCome = false := by
      simpa [Clean, State.abandons, hends, hr, paired_of_phase hor hpair, hv,
        show 0 < v .syncWr from htok] using hc
    refine List.count_eq_zero.mpr fun hmem => ?_
    obtain ⟨r₀, hr₀, hphase⟩ := List.mem_map.mp hmem
    obtain ⟨hrun, hstart⟩ := Task.phase_start hphase
    rcases (List.mem_or_eq_of_mem_set hr₀).symm with rfl | hold
    · cases hrun
    · have hwait : r₀.toCome = true := by simp [Reader.toCome, hrun, phase_start_reader hstart]
      exact Bool.false_ne_true (hcome.symm.trans (List.any_eq_true.mpr ⟨r₀, hold, hwait⟩))

/-- **One clean step** keeps the counters sound. -/
theorem State.Sound.step {e : Event} (h : s.Sound) (hc : Clean s e) (hs : Steps s e t) :
    t.Sound := by
  intro v' hv'
  cases hsems : s.sems with
  | none =>
    rw [hs.gone hsems] at hv'
    cases hv'
  | some v =>
    obtain ⟨hacc, hsafe⟩ := h v hsems
    obtain ⟨hacc', hcount⟩ := hacc.step hsems hs hv'
    refine ⟨hacc', ?_⟩
    cases hcount with
    | still hctl =>
      rw [hctl]
      exact hsafe
    | moved x hstep hor =>
      refine hsafe.step (initSlot_sum x) hstep ?_
      rcases hor with hclean | hexits
      · exact hclean
      · cases hs with
        | writerExit hw hlive ha =>
          have hx : x = .left := by
            rcases ha with ⟨rfl, -⟩ | rfl <;> exact (Option.some_inj.mp hexits).symm
          subst hx
          refine cleanStep_writer hacc hsems hw (Task.live_of_ne hlive) ?_ hc
          rcases ha with ⟨rfl, -⟩ | rfl <;> rfl
        | readerExit hr hlive ha =>
          have hx : x = .right := by
            rcases ha with ⟨rfl, -⟩ | rfl <;> exact (Option.some_inj.mp hexits).symm
          subst hx
          refine cleanStep_reader hacc hsems hr (Task.live_of_ne hlive) ?_ hc
          rcases ha with ⟨rfl, -⟩ | rfl <;> rfl
        | _ => cases hexits

/-- Nobody has posted, and all slots are empty. -/
theorem State.Sound.start (files : List (List Byte)) (n len : Nat) (data : List Byte) :
    (State.start files n len data).Sound := by
  intro v hv
  obtain rfl := Option.some_inj.mp hv
  refine ⟨Accounts.start files n len data, (Accounts.start files n len data).acct, fun _ => ?_⟩
  have hn := ctl_start_eq_zero files n len data
  have htok : ∀ x, ((State.start files n len data).ctl fun _ => 0).tok x = 0 := by
    intro x
    cases x <;> rfl
  refine ⟨fun x => ?_, fun x => ?_⟩
  · constructor <;> simp [Ctl.connected, hn, htok]
  · constructor <;> simp [Ctl.connected, hn]

/-- Nobody posts while the other is between taking and giving. -/
theorem State.Sound.exclusive (h : s.Sound) (hv : s.sems = some v) :
    (s.ctl v).critical .left + (s.ctl v).critical .right ≤ 1 :=
  (h v hv).2.exclusive

end CompTech.Sharmem
