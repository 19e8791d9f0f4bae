import CompTech.Sharmem.Lockstep
import CompTech.Sharmem.Next

/-!
# Whole files

Who leaves the loop in order has transferred a whole file, however many writers and readers there
are and whoever else fails or is killed: a reader past its loop has put out all of one writer's file
(`whole_of_run`), and for a writer past its loop there is a reader that has put out all of its file.

The end of a file is an empty block, so what has to be kept up is that no reader takes an old length
of zero in the page for the end. `Stored` says that the length is that of the writer's last block,
and `Fresh` that nothing can be taken from a writer that has not read yet.

The proof that a reader ends with a whole file meets the writer only at the reader's last check.
There a connected writer is found (`exists_connected`), the length in the page is that of its last
block (`Stored`), and that is 0 for an empty block only; `Writer.Counted.eof` then says that the
writer had come to the end of its file, and `Held` that all of it is put out. The writer may be
killed right after that. In the same way the writer meets a reader at each of its checks
(`check_given`).
-/

namespace CompTech.Sharmem

open Lib

variable {s t : State} {v v' : SEM → Nat} {i j k : Nat} {w w' : Writer} {r r' : Reader} {e : Event}
  {files : List (List Byte)} {n len : Nat} {data : List Byte} {es : List Event}

/-! ## What `num_symb` says

The variable is −1 up to the first `read`, and it is the length of the last block from there on.

`Counted` is about one writer and needs nothing of the others: the variable changes at the writer's
own `read` only, and the position with it. `Stored` is about the page, and is kept because the page
has one owner: while a writer is connected no other writer is active, so a length that it has stored
stays until it stores the next. -/

/-- `num_symb` is the length of the block that the writer has read last. -/
structure Writer.Counted (w : Writer) : Prop where
  /-- −1 up to the loop -/
  before : w.pc.phase.before = true → w.numSymb < 0
  filled : w.pc.filled = true → 0 ≤ w.numSymb
  /-- `read` returns 0 at the end of the file only -/
  eof : w.numSymb = 0 → w.pos = w.file.length

/-- Only the writer's own `read` changes it. -/
theorem Writer.Counted.next (h : w.Counted) (hnext : WriterNext s t w w') : w'.Counted := by
  cases hnext with
  | still => exact ⟨h.before, h.filled, h.eof⟩
  | op _ hop _ _ _ =>
    refine ⟨fun hb => h.before ?_, fun hf => ?_, h.eof⟩
    · generalize w.pc = pc at hop
      cases hop <;> first | rfl | cases hb
    · generalize w.pc = pc at hop
      cases hop <;> exact Bool.noConfusion hf
  | setval _ hpc =>
    exact ⟨fun _ => h.before (by rw [hpc]; rfl), fun hf => Bool.noConfusion hf, h.eof⟩
  | remove => exact ⟨fun hb => Bool.noConfusion hb, fun hf => Bool.noConfusion hf, h.eof⟩
  | own _ hl _ =>
    cases hl with
    | sleep => exact ⟨h.before, h.filled, h.eof⟩
    | read k hpc hle hk =>
      refine ⟨fun hb => Bool.noConfusion hb, fun _ => Int.natCast_nonneg k, fun hz => ?_⟩
      obtain rfl : k = 0 := Int.ofNat_eq_zero.mp hz
      exact hk rfl
    | memcpy hpc | storeNumSymb hpc =>
      exact ⟨fun hb => Bool.noConfusion hb, fun _ => h.filled (by rw [hpc]; rfl), h.eof⟩
    | openFile hpc | closeFile hpc | unlinkShm hpc | deleteShm hpc =>
      exact ⟨fun hb => Bool.noConfusion hb, fun hf => Bool.noConfusion hf, h.eof⟩

/-- The writer has stored the length of a block. -/
structure Writer.Stored (w : Writer) : Prop where
  live : w.task.live = true
  connected : w.pc.phase.connected = true
  copying : w.pc.copying = false
  /-- it has been through its loop once -/
  numSymb : 0 ≤ w.numSymb

/-- The length in the page is that of such a writer's block. -/
def State.Stored (s : State) : Prop :=
  ∀ v, s.sems = some v → ∀ w ∈ s.writers, w.Stored → s.shmLen = w.numSymb.toNat

/-- For a writer that is there, to be paired is a matter of its place. -/
theorem Writer.paired_of_live (hlive : w.task.live = true) (hp : w.pc.phase.paired = true) :
    w.paired = true := by
  obtain ⟨q, hq, hor⟩ := Task.phase_some (p := w.pc.phase) hlive
  have hwq : w.phase = some q := hq
  rw [Writer.paired, hwq]
  rcases hor with rfl | ⟨hstart, -⟩
  · exact hp
  · rw [hstart] at hp
    cases hp

/-- A connected one is paired. -/
theorem Writer.paired_of_connected (hlive : w.task.live = true)
    (hc : w.pc.phase.connected = true) : w.paired = true :=
  Writer.paired_of_live hlive (Phase.paired_of_connected hc)

/-- A writer that has stored had stored before, or does it now. -/
theorem WriterNext.stored (h : WriterNext s t w w') (hc : w.Counted) (hw' : w'.Stored) :
    (w.Stored ∧ w'.numSymb = w.numSymb) ∨
      (w.task.live = true ∧ w.pc = .storeNumSymb ∧ t.shmLen = w'.numSymb.toNat) := by
  obtain ⟨hlive, hconn, hcopy, hnum⟩ := hw'
  cases h with
  | still hk => exact .inl ⟨⟨hk.live hlive, hconn, hcopy, hnum⟩, rfl⟩
  | op hrun hop _ _ _ =>
    refine .inl ⟨⟨Task.live_running hrun, ?_, ?_, hnum⟩, rfl⟩
    · have hbefore : w.pc.phase.before = false := by
        rw [Bool.eq_false_iff]
        exact fun hb => absurd hnum (Int.not_le.mpr (hc.before hb))
      generalize w.pc = pc at hop hbefore
      cases hop <;>
        first | rfl | exact Bool.noConfusion hconn | exact Bool.noConfusion hbefore
    · generalize w.pc = pc at hop
      cases hop <;> rfl
  | setval => cases hconn
  | remove => cases hconn
  | own hrun hl hlen =>
    have hlive₀ := Task.live_running hrun
    cases hl with
    | sleep => exact .inl ⟨⟨hlive₀, hconn, hcopy, hnum⟩, rfl⟩
    | openFile hpc | closeFile hpc =>
      exact .inl ⟨⟨hlive₀, by rw [hpc]; rfl, by rw [hpc]; rfl, hnum⟩, rfl⟩
    | read => cases hcopy
    | memcpy => cases hcopy
    | storeNumSymb hpc => exact .inr ⟨hlive₀, hpc, hlen⟩
    | unlinkShm => cases hconn
    | deleteShm => cases hconn

/-- A set that is there was there. -/
theorem Steps.sems_of (hs : Steps s e t) (hv' : t.sems = some v') : ∃ v, s.sems = some v := by
  cases hv : s.sems with
  | some v => exact ⟨v, rfl⟩
  | none =>
    rw [hs.gone hv] at hv'
    cases hv'

/-- Only one writer is active, so only its own store changes the length while it is connected. -/
theorem State.Stored.step (h : s.Stored) (hcount : ∀ w ∈ s.writers, w.Counted)
    (hacc : s.Accounted) (hs : Steps s e t) : t.Stored := by
  intro v' hv' w' hw' hstored
  obtain ⟨k, hk⟩ := List.mem_iff_getElem?.mp hw'
  obtain ⟨w, hw, hnext⟩ := hs.writer_next hk
  obtain ⟨v, hv⟩ := hs.sems_of hv'
  have hmem := List.mem_of_getElem? hw
  rcases hnext.stored (hcount w hmem) hstored with ⟨hold, hnum⟩ | ⟨-, -, hlen⟩
  · rw [hnum, ← h v hv w hmem hold]
    refine hs.shmLen.resolve_right ?_
    rintro ⟨i, w₀, hw₀, hrun, hpc⟩
    -- the writer that stores would be this one, and this one does not
    have hactive := Writer.active_of_paired (Writer.paired_of_connected hold.live hold.connected)
    have hactive₀ : w₀.phase.any Phase.active = true := by
      rw [Writer.phase_running hrun, hpc]
      rfl
    obtain rfl := (hacc v hv).writer_unique hw hw₀ hactive hactive₀
    obtain rfl := Option.some_inj.mp (hw.symm.trans hw₀)
    have hcopy := hold.copying
    rw [hpc] at hcopy
    cases hcopy
  · exact hlen

/-! ## Nothing to take before the first block

A pair that has just begun has an old block in the page, of a transfer before it, and an old length.
Both are harmless as long as the reader cannot take them, which is to say that FULL is 0 and the
reader is not past `p_full`. The invariant says so for as long as `num_symb` of the writer is
negative. -/

/-- With a writer that has not read yet, FULL is 0 and its reader has taken nothing. -/
def State.Fresh (s : State) : Prop :=
  ∀ v, s.sems = some v → Guarded (s.ctl v) → ∀ w ∈ s.writers, ∀ r ∈ s.readers,
    w.paired = true → r.paired = true → w.numSymb < 0 → v .full = 0 ∧ r.critical = false

/-- FULL rises only when an active writer gives, or goes. All other steps leave FULL or lower it. -/
theorem Steps.full_le (hs : Steps s e t) (hacc : Accounts s v) (hv : s.sems = some v)
    (hv' : t.sems = some v') : v' .full ≤ v .full ∨
      ∃ (i : Nat) (w w' : Writer), s.writers[i]? = some w ∧ t.writers[i]? = some w' ∧
        w.phase.any Phase.active = true ∧ (w.pc = .vFull ∨ w'.paired = false) := by
  have hself : ∀ {i : Nat} {w w' : Writer}, s.writers[i]? = some w →
      (s.writers.set i w')[i]? = some w' :=
    fun hw => List.getElem?_set_self (List.getElem?_eq_some_iff.mp hw).1
  have hsame : t.sems = s.sems → v' .full ≤ v .full := fun h => (full_of_sems_eq h v v' hv hv').le
  cases hs with
  | @writerMove i n w _ hw hrun hm =>
    cases hm with
    | @semop ops next v₀ v₁ adj hop hn hv₀ hd =>
      obtain rfl := Option.some_inj.mp (hv₀.symm.trans hv)
      obtain rfl := Option.some_inj.mp hv'
      by_cases hpc : w.pc = .vFull
      · refine .inr ⟨i, w, _, hw, hself hw, ?_, .inl hpc⟩
        rw [Writer.phase_running hrun, hpc]
        rfl
      · left
        generalize w.pc = pc at hop hpc
        cases hop with
        | vFull | vFullLast => exact absurd rfl hpc
        | _ => exact (semop_unchanged hd rfl).le
    | setval hpc hv₀ =>
      obtain rfl := Option.some_inj.mp hv'
      exact .inl (Nat.zero_le _)
    | quiet => exact .inl (hsame rfl)
    | fail => exact .inl (hsame rfl)
    | remove => cases hv'
  | writerErr => exact .inl (hsame rfl)
  | @writerExit i a w hw hne =>
    have hlive := Task.live_of_ne hne
    by_cases hconn : w.pc.phase.connected = true
    · exact .inr ⟨i, w, _, hw, hself hw,
        Writer.active_of_paired (Writer.paired_of_connected hlive hconn), .inr rfl⟩
    · have hadj : w.task.adj .full = 0 := by
        rw [hacc.writers w (List.mem_of_getElem? hw) hlive, adjWr, Bool.eq_false_iff.mpr hconn]
        rfl
      exact .inl (hacc.full_of_exit hadj rfl hv hv').le
  | @readerMove j n r _ hr hrun hm =>
    cases hm with
    | @semop ops next v₀ v₁ adj hop hn hv₀ hd =>
      obtain rfl := Option.some_inj.mp (hv₀.symm.trans hv)
      obtain rfl := Option.some_inj.mp hv'
      left
      generalize r.pc = pc at hop
      cases hop with
      | pFull => exact (semop_pred hd rfl).1.trans_le (Nat.sub_le _ _)
      | _ => exact (semop_unchanged hd rfl).le
    | @setval v₀ hpc hv₀ =>
      obtain rfl := Option.some_inj.mp (hv₀.symm.trans hv)
      obtain rfl := Option.some_inj.mp hv'
      have hne : SEM.full ≠ SEM.empty := SEM.noConfusion
      exact .inl (setval_of_ne hne _ _).le
    | _ => exact .inl (hsame rfl)
  | readerErr =>
    refine .inl (hsame ?_)
    unfold State.failReader
    split <;> rfl
  | @readerExit j a r hr hne =>
    have hadj : r.task.adj .full = 0 :=
      hacc.readers r (List.mem_of_getElem? hr) (Task.live_of_ne hne) .full (.inl (by decide))
    exact .inl (hacc.full_of_exit hadj rfl hv hv').le

/-- A paired reader is there. -/
theorem Reader.live_of_paired (h : r.paired = true) : r.task.live = true := by
  have hphase := (Reader.phase_of_paired h).1
  cases hlife : r.task.life with
  | dead =>
    rw [Reader.phase, Task.phase, hlife] at hphase
    cases hphase
  | _ => exact Task.live_of_ne (by rw [hlife]; exact Life.noConfusion)

/-- A paired writer is there. -/
theorem Writer.live_of_paired (h : w.paired = true) : w.task.live = true := by
  have hphase := (Writer.phase_of_paired h).1
  cases hlife : w.task.life with
  | dead =>
    rw [Writer.phase, Task.phase, hlife] at hphase
    cases hphase
  | _ => exact Task.live_of_ne (by rw [hlife]; exact Life.noConfusion)

/-- A paired writer that has not read was so before, or posts now. -/
theorem WriterNext.paired (h : WriterNext s t w w') (hp : w'.paired = true)
    (hneg : w'.numSymb < 0) : (w.paired = true ∧ w.numSymb < 0) ∨
      (w.task.life = .running ∧ w.pc = .syncRead) := by
  have hphase := (Writer.phase_of_paired hp).2
  have hrunning : w.task.life = .running → w.pc.phase.paired = true → w.paired = true :=
    fun hrun hpair => (Writer.paired_running hrun).trans hpair
  cases h with
  | still hk =>
    exact .inl ⟨Writer.paired_of_live (hk.live (Writer.live_of_paired hp)) hphase, hneg⟩
  | op hrun hop _ _ _ =>
    by_cases hpc : w.pc = .syncRead
    · exact .inr ⟨hrun, hpc⟩
    · refine .inl ⟨hrunning hrun ?_, hneg⟩
      generalize w.pc = pc at hop hpc
      cases hop with
      | syncRead => exact absurd rfl hpc
      | alone | wait | endWr => exact Bool.noConfusion hphase
      | _ => rfl
  | setval => exact Bool.noConfusion hphase
  | remove => exact Bool.noConfusion hphase
  | own hrun hl _ =>
    have hkeep : w.pc.phase.paired = true := by
      rw [← hl.kept.1]
      exact hphase
    refine .inl ⟨hrunning hrun hkeep, ?_⟩
    cases hl with
    | read k => exact absurd hneg (Int.not_lt.mpr (Int.natCast_nonneg k))
    | _ => exact hneg

/-- A paired reader was so before, or posts now. -/
theorem ReaderNext.paired (h : ReaderNext s r r') (hp : r'.paired = true) :
    r.paired = true ∨ (r.task.life = .running ∧ r.pc = .syncWrite) := by
  have hphase := (Reader.phase_of_paired hp).2
  have hrunning : r.task.life = .running → r.pc.phase.paired = true → r.paired = true :=
    fun hrun hpair => (Reader.paired_running hrun).trans hpair
  cases h with
  | @still k hk =>
    left
    have hlive := hk.live (Reader.live_of_paired hp)
    obtain ⟨q, hq, hor⟩ := Task.phase_some (p := r.pc.phase) hlive
    have hrq : r.phase = some q := hq
    rw [Reader.paired, hrq, Option.any_some, Bool.and_eq_true]
    refine ⟨?_, ?_⟩
    · rcases hor with rfl | ⟨hstart, -⟩
      · exact hphase
      · rw [hstart] at hphase
        cases hphase
    · -- who has failed before has failed now
      rw [Bool.not_eq_true', Bool.eq_false_iff]
      intro hfail
      obtain ⟨hlife, hpc⟩ := Bool.and_eq_true_iff.mp hfail
      have hlife' : k.life = .failing := by
        rcases hk with hsame | ⟨hrun, -⟩ | hdead
        · exact hsame.trans (of_decide_eq_true hlife)
        · rw [hrun] at hlife
          cases hlife
        · exact absurd hdead (of_decide_eq_true (Reader.live_of_paired hp))
      rw [Reader.paired, Bool.and_eq_true, Bool.not_eq_true', Bool.and_eq_false_iff] at hp
      rcases hp.2 with h | h
      · exact of_decide_eq_false h hlife'
      · rw [hpc] at h
        cases h
  | op hrun hop _ _ _ =>
    by_cases hpc : r.pc = .syncWrite
    · exact .inr ⟨hrun, hpc⟩
    · refine .inl (hrunning hrun ?_)
      generalize r.pc = pc at hop hpc
      cases hop with
      | syncWrite => exact absurd rfl hpc
      | alone | wait | endRd => exact Bool.noConfusion hphase
      | _ => rfl
  | setval => exact Bool.noConfusion hphase
  | endGone => exact Bool.noConfusion hphase
  | cut n hrun hpc => exact .inl (hrunning hrun (by rw [hpc]; rfl))
  | own hrun hl =>
    refine .inl (hrunning hrun ?_)
    rw [← hl.kept.1]
    exact hphase

/-- A reader gets on to take only what is there. -/
theorem ReaderNext.critical (h : ReaderNext s r r') (hc : r'.critical = true) :
    r.critical = true ∨ ∃ v, s.sems = some v ∧ 0 < v .full := by
  obtain ⟨hphase, hcrit⟩ := Reader.phase_of_critical hc
  have hrunning : r.task.life = .running → r.pc.phase.critical = true → r.critical = true :=
    Reader.critical_of_running
  cases h with
  | @still k hk =>
    refine .inl (Reader.critical_of_live (hk.live ?_) hcrit)
    cases hlife : k.life with
    | dead =>
      rw [Reader.phase, Task.phase, hlife] at hphase
      cases hphase
    | _ => exact Task.live_of_ne (by rw [hlife]; exact Life.noConfusion)
  | @op ops next v v' adj hrun hop _ hv hd =>
    by_cases hpc : r.pc = .pFull
    · rw [hpc] at hop
      cases hop
      exact .inr ⟨v, hv, (semop_pred hd rfl).2⟩
    · refine .inl (hrunning hrun ?_)
      generalize r.pc = pc at hop hpc
      cases hop with
      | pFull => exact absurd rfl hpc
      | check => rfl
      | _ => exact Bool.noConfusion hcrit
  | setval => exact Bool.noConfusion hcrit
  | endGone => exact Bool.noConfusion hcrit
  | cut n hrun hpc => exact .inl (hrunning hrun (by rw [hpc]; rfl))
  | own hrun hl =>
    refine .inl (hrunning hrun ?_)
    rw [← hl.kept.1]
    exact hcrit

/-- A writer that posts finds nobody to hand over to yet, and so does a reader. -/
theorem fresh_writer_posts (hsound : s.Sound) (hv : s.sems = some v) (hg : Guarded (s.ctl v))
    (hw : s.writers[i]? = some w) (hrun : w.task.life = .running) (hpc : w.pc = .syncRead)
    (hr : r ∈ s.readers) : v .full = 0 ∧ r.critical = false := by
  obtain ⟨hacc, hsafe⟩ := hsound v hv
  have hpaired := hsafe.paired hg
  have hphase : w.phase = some .post := by
    rw [Writer.phase_running hrun, hpc]
    rfl
  obtain ⟨-, -, -, hpost⟩ :=
    count_of_active hacc.acct (State.writer_counts v hw hphase) (by rfl)
  rw [if_pos rfl] at hpost
  refine ⟨(hpaired.slots .left).slot_post hpost, Bool.eq_false_iff.mpr fun hc => ?_⟩
  obtain ⟨j, hj⟩ := List.mem_iff_getElem?.mp hr
  obtain ⟨hrphase, hcrit⟩ := Reader.phase_of_critical hc
  obtain ⟨-, hconn, -, -⟩ := count_of_active hacc.acct (State.reader_counts v hj hrphase)
    (Phase.active_of_critical hcrit)
  have hquiet := (hpaired.tokens .left).quiet
  have hle := Phase.critical_le r.pc.phase
  rw [hcrit, Bool.toNat_true] at hle
  simp only [Side.other] at hquiet
  omega

theorem fresh_reader_posts (hsound : s.Sound) (hv : s.sems = some v) (hg : Guarded (s.ctl v))
    (hr : s.readers[j]? = some r) (hrun : r.task.life = .running) (hpc : r.pc = .syncWrite)
    (hw : w ∈ s.writers) (hpw : w.paired = true) : v .full = 0 ∧ r.critical = false := by
  obtain ⟨hacc, hsafe⟩ := hsound v hv
  have hpaired := hsafe.paired hg
  have hphase : r.phase = some .post := by
    rw [Reader.phase_running hrun, hpc]
    rfl
  obtain ⟨hwp, hwpair⟩ := Writer.phase_of_paired hpw
  obtain ⟨i, hi⟩ := List.mem_iff_getElem?.mp hw
  obtain ⟨hposted, hconn, -, -⟩ :=
    count_of_active hacc.acct (State.writer_counts v hi hwp) (Phase.active_of_paired hwpair)
  obtain ⟨hposted', hconn', -, hpost⟩ :=
    count_of_active hacc.acct (State.reader_counts v hr hphase) (by rfl)
  rw [if_pos rfl] at hpost
  have hquiet := (hpaired.tokens .right).quiet
  simp only [Side.other] at hquiet
  have hnot : w.pc.phase.connected = false := by
    rw [← Bool.toNat_eq_zero]
    omega
  rw [Phase.eq_posted hwpair hnot, if_pos rfl] at hposted
  constructor
  · refine (hpaired.slots .left).slot_posted hposted ?_
    simp only [Side.other]
    rw [hposted', hconn', if_neg Phase.noConfusion]
    rfl
  · rw [Reader.critical, hphase]
    rfl

/-- One clean step. The two ways into the pair are the two posts; in between FULL could only rise by
    the writer's own `v_full`, and it has not come there. A pair is new by the post of either side,
    and both posts find FULL at 0 (`fresh_writer_posts`, `fresh_reader_posts`). -/
theorem State.Fresh.step (h : s.Fresh) (hcount : ∀ w ∈ s.writers, w.Counted) (hsound : s.Sound)
    (ho : Onward s t) (hs : Steps s e t) : t.Fresh := by
  intro v' hv' hg' w' hw' r' hr' hpw' hpr' hneg'
  obtain ⟨v, hv, hguard⟩ := ho.sems v' hv'
  have hg := hguard hg'
  obtain ⟨i, hi⟩ := List.mem_iff_getElem?.mp hw'
  obtain ⟨j, hj⟩ := List.mem_iff_getElem?.mp hr'
  obtain ⟨w, hw, hwn⟩ := hs.writer_next hi
  obtain ⟨r, hr, hrn⟩ := hs.reader_next hj
  have hwm := List.mem_of_getElem? hw
  have hrm := List.mem_of_getElem? hr
  have hold := hwn.paired hpw' hneg'
  have hzero : v .full = 0 ∧ r.critical = false := by
    rcases hold with ⟨hpw, hneg⟩ | ⟨hrun, hpc⟩
    · rcases hrn.paired hpr' with hpr | ⟨hrun, hpc⟩
      · exact h v hv hg w hwm r hrm hpw hpr hneg
      · exact fresh_reader_posts hsound hv hg hr hrun hpc hwm hpw
    · exact fresh_writer_posts hsound hv hg hw hrun hpc hrm
  have hle : v' .full ≤ v .full := by
    refine (hs.full_le (ho.accounts v hv) hv hv').resolve_right ?_
    rintro ⟨i₀, w₀, w₁, hw₀, hw₁, hactive₀, hor⟩
    -- nobody gives but the active writer, and that is this one
    have hactive : w.phase.any Phase.active = true := by
      rcases hold with ⟨hpw, -⟩ | ⟨hrun, hpc⟩
      · exact Writer.active_of_paired hpw
      · rw [Writer.phase_running hrun, hpc]
        rfl
    obtain rfl := (ho.accounts v hv).writer_unique hw hw₀ hactive hactive₀
    obtain rfl := Option.some_inj.mp (hw.symm.trans hw₀)
    obtain rfl := Option.some_inj.mp (hi.symm.trans hw₁)
    rcases hor with hpc | hnot
    · rcases hold with ⟨-, hneg⟩ | ⟨-, hpost⟩
      · have hnum := (hcount w hwm).filled (by rw [hpc]; rfl)
        omega
      · rw [hpc] at hpost
        cases hpost
    · rw [hnot] at hpw'
      cases hpw'
  refine ⟨by omega, Bool.eq_false_iff.mpr fun hc => ?_⟩
  rcases hrn.critical hc with hcrit | ⟨v₀, hv₀, hpos⟩
  · rw [hzero.2] at hcrit
    cases hcrit
  · obtain rfl := Option.some_inj.mp (hv.symm.trans hv₀)
    omega

/-! ## The checks

The two places where a process learns how far the other side is. -/

/-- A check of the reader that succeeds with an empty block in the page is at the end of the
    file. -/
theorem Transfer.check_last (h : Transfer s) (hstored : s.Stored) (hfresh : s.Fresh)
    (hcount : ∀ w ∈ s.writers, w.Counted) (hsound : s.Sound) (hrm : r ∈ s.readers)
    (hrun : r.task.life = .running) (hpc : r.pc = .checkNumProc) (hv : s.sems = some v)
    (htwo : 2 ≤ v .numProc) (hlen : s.shmLen = 0) : r.out ∈ s.files := by
  obtain ⟨hacc, hsafe⟩ := hsound v hv
  have hg : Guarded (s.ctl v) := hacc.acct.guarded htwo
  obtain ⟨w, hwm, hany⟩ := (exists_connected hacc htwo).1
  obtain ⟨q, hq, hconn⟩ := (Option.any_eq_true _ _).mp hany
  have hpw : w.paired = true := by
    rw [Writer.paired, hq, Option.any_some]
    exact Phase.paired_of_connected hconn
  have hqpc : q = w.pc.phase := Task.phase_eq hq (by rintro rfl; cases hconn)
  have hpr : r.paired = true := by
    rw [Reader.paired_running hrun, hpc]
    rfl
  have hcrit : r.critical = true := Reader.critical_of_running hrun (by rw [hpc]; rfl)
  have hcopy : w.pc.copying = false := by
    rw [Bool.eq_false_iff]
    intro hcopy
    exact h.excl w hwm r hrm (Writer.critical_of_copying (Writer.live_of_paired hpw) hcopy) hcrit
  have hnum : 0 ≤ w.numSymb := by
    by_contra hneg
    have hnone := (hfresh v hv hg w hwm r hrm hpw hpr (Int.not_le.mp hneg)).2
    rw [hcrit] at hnone
    cases hnone
  have hzero := hstored v hv w hwm ⟨Writer.live_of_paired hpw, hqpc ▸ hconn, hcopy, hnum⟩
  have heof := (hcount w hwm).eof (by omega)
  have hheld := h.held v hv hg w hwm r hrm hpw hpr
  have htake : r.pc.taking = true := by rw [hpc]; rfl
  rw [Held, pending, hcopy, if_neg Bool.false_ne_true, if_pos (.inr (.inr htake)), State.shmBlock,
    hlen, List.take_zero, List.append_nil, heof, List.take_length] at hheld
  rw [hheld]
  exact List.mem_map_of_mem hwm

/-- A check of the writer that succeeds finds everything it has read put out. -/
theorem Transfer.check_given (h : Transfer s) (hsound : s.Sound) (hwm : w ∈ s.writers)
    (hrun : w.task.life = .running) (hpc : w.pc = .checkNumProc) (hv : s.sems = some v)
    (htwo : 2 ≤ v .numProc) : ∃ r ∈ s.readers, r.out = w.file.take w.pos := by
  obtain ⟨hacc, hsafe⟩ := hsound v hv
  obtain ⟨r, hrm, hany⟩ := (exists_connected hacc htwo).2
  obtain ⟨q, hq, hconn⟩ := (Option.any_eq_true _ _).mp hany
  have hqpc : q = r.pc.phase := Task.phase_eq hq (by rintro rfl; cases hconn)
  have hpw : w.paired = true := by
    rw [Writer.paired_running hrun, hpc]
    rfl
  have hcw : w.critical = true := by
    rw [Writer.critical, Writer.phase_running hrun, hpc]
    rfl
  have hpr : r.paired = true := by
    rw [Reader.paired, hq, Option.any_some, Phase.paired_of_connected hconn, Bool.true_and,
      Bool.not_eq_true', Bool.and_eq_false_iff]
    by_cases hwrite : r.pc = .write
    · have hcr : r.critical = true := by
        rw [Reader.critical, hq, hqpc, hwrite]
        rfl
      exact (h.excl w hwm r hrm hcw hcr).elim
    · exact .inr (decide_eq_false hwrite)
  have hg : Guarded (s.ctl v) := hacc.acct.guarded htwo
  have hone := slots_of_paired hsound hv hg hwm hrm hpw hpr
  have hheld := h.held v hv hg w hwm r hrm hpw hpr
  rw [Held, pending_nil hone (by rw [hpc]; rfl) (by rw [hpc]; rfl) (by rw [hpc]; decide),
    List.append_nil] at hheld
  exact ⟨r, hrm, hheld⟩

/-! ## The reader at the end of its loop

What the reader knows it has learned at its check, and between the check and its `v_empty` it is
critical, so no writer stores another length. The three fields are the three stretches of its way
from there to the end. -/

/-- A reader that has come upon an empty block has put out a whole file. -/
structure Reader.Ends (s : State) (r : Reader) : Prop where
  /-- behind its last check, … -/
  load : r.task.life = .running → r.pc = .load → s.shmLen = 0 → r.out ∈ s.files
  /-- … with the length 0 in hand, … -/
  last : r.task.life = .running → r.pc = .write ∨ r.pc = .vEmpty → r.numSymb ≤ 0 → r.out ∈ s.files
  /-- … and behind its loop -/
  left : r.pc.leftLoop = true → r.out ∈ s.files

/-- A reader that stands elsewhere promises nothing. -/
theorem Reader.Ends.of_pc (hload : r.pc ≠ .load) (hwrite : r.pc ≠ .write) (hempty : r.pc ≠ .vEmpty)
    (hleft : r.pc.leftLoop = false) : r.Ends s where
  load _ hpc := absurd hpc hload
  last _ hpc := hpc.elim (absurd · hwrite) (absurd · hempty)
  left hpc := by
    rw [hleft] at hpc
    cases hpc

/-- While a reader is critical the length stays as it is. -/
theorem Steps.shmLen_of_critical (hs : Steps s e t) (hexcl : s.Excl) (hrm : r ∈ s.readers)
    (hcrit : r.critical = true) : t.shmLen = s.shmLen := by
  refine hs.shmLen.resolve_right ?_
  rintro ⟨i, w, hw, hrun, hpc⟩
  have hcopy : w.pc.copying = true := by rw [hpc]; rfl
  exact hexcl w (List.mem_of_getElem? hw) r hrm
    (Writer.critical_of_copying (Task.live_running hrun) hcopy) hcrit

/-- The reader learns it at its check (`hcheck`) and keeps it, since nobody changes the page while
    it is critical. -/
theorem Reader.Ends.next (h : r.Ends s) (hnext : ReaderNext s r r') (hfiles : t.files = s.files)
    (hlen : r.critical = true → t.shmLen = s.shmLen)
    (hcheck : ∀ v, r.task.life = .running → r.pc = .checkNumProc → s.sems = some v →
      2 ≤ v .numProc → s.shmLen = 0 → r.out ∈ s.files) : r'.Ends t := by
  have hcritical : r.task.life = .running → r.pc.phase.critical = true → t.shmLen = s.shmLen :=
    fun hrun hc => hlen (Reader.critical_of_running hrun hc)
  cases hnext with
  | still hk =>
    refine ⟨fun hrun hpc hzero => ?_, fun hrun hpc hnum => ?_, fun hpc => ?_⟩
    · have hpc₀ : r.pc = .load := hpc
      rw [hcritical (hk.running hrun) (by rw [hpc₀]; rfl)] at hzero
      exact hfiles ▸ h.load (hk.running hrun) hpc hzero
    · exact hfiles ▸ h.last (hk.running hrun) hpc hnum
    · exact hfiles ▸ h.left hpc
  | @op ops next v v' adj hrun hop hn hv hd =>
    generalize hpc : r.pc = pc at hop
    cases hop with
    | check =>
      have hnum : 0 ≤ (v .numProc : Int) + -2 := (semop_done_head hd).2
      refine ⟨fun _ _ hzero => ?_, fun _ hc => ?_, fun hc => Bool.noConfusion hc⟩
      · rw [hcritical hrun (by rw [hpc]; rfl)] at hzero
        exact hfiles ▸ hcheck v hrun hpc hv (by omega) hzero
      · rcases hc with hc | hc <;> exact ReaderPc.noConfusion hc
    | vEmptyLast =>
      have hlast : r.numSymb ≤ 0 :=
        Int.not_lt.mp fun hpos => ReaderPc.noConfusion ((hn hpc).mpr hpos)
      have hout : r.out ∈ t.files := hfiles ▸ h.last hrun (.inr hpc) hlast
      refine ⟨fun _ hc => ReaderPc.noConfusion hc, fun _ hc => ?_, fun _ => hout⟩
      rcases hc with hc | hc <;> exact ReaderPc.noConfusion hc
    | endRd =>
      have hout : r.out ∈ t.files := hfiles ▸ h.left (by rw [hpc]; rfl)
      refine ⟨fun _ hc => ReaderPc.noConfusion hc, fun _ hc => ?_, fun _ => hout⟩
      rcases hc with hc | hc <;> exact ReaderPc.noConfusion hc
    | _ => exact .of_pc ReaderPc.noConfusion ReaderPc.noConfusion ReaderPc.noConfusion rfl
  | setval => exact .of_pc ReaderPc.noConfusion ReaderPc.noConfusion ReaderPc.noConfusion rfl
  | cut n hrun hpc =>
    refine ⟨fun hrun' => Life.noConfusion hrun', fun hrun' => Life.noConfusion hrun', fun hc => ?_⟩
    have hleft : r.pc.leftLoop = true := hc
    rw [hpc] at hleft
    cases hleft
  | endGone hrun hpc =>
    have hout : r.out ∈ t.files := hfiles ▸ h.left (by rw [hpc]; rfl)
    refine ⟨fun _ hc => ReaderPc.noConfusion hc, fun _ hc => ?_, fun _ => hout⟩
    rcases hc with hc | hc <;> exact ReaderPc.noConfusion hc
  | own hrun hl =>
    cases hl with
    | sleep =>
      refine ⟨fun _ hpc hzero => ?_, fun _ hpc hnum => hfiles ▸ h.last hrun hpc hnum,
        fun hpc => hfiles ▸ h.left hpc⟩
      have hpc₀ : r.pc = .load := hpc
      rw [hcritical hrun (by rw [hpc₀]; rfl)] at hzero
      exact hfiles ▸ h.load hrun hpc hzero
    | load hpc =>
      refine ⟨fun _ hc => ReaderPc.noConfusion hc, fun _ _ hnum => ?_,
        fun hc => Bool.noConfusion hc⟩
      have hzero : s.shmLen = 0 := by
        change (s.shmLen : Int) ≤ 0 at hnum
        omega
      exact hfiles ▸ h.load hrun hpc hzero
    | write hpc =>
      refine ⟨fun _ hc => ReaderPc.noConfusion hc, fun _ _ hnum => ?_,
        fun hc => Bool.noConfusion hc⟩
      have hnone : r.numSymb.toNat = 0 := Int.toNat_of_nonpos hnum
      -- the empty block adds nothing
      rw [State.outBlock, hnone, List.take_zero, List.append_nil, hfiles]
      exact h.last hrun (.inl hpc) hnum
    | unlinkShm hpc =>
      have hout : r.out ∈ t.files := hfiles ▸ h.left (by rw [hpc]; rfl)
      refine ⟨fun _ hc => ReaderPc.noConfusion hc, fun _ hc => ?_, fun _ => hout⟩
      rcases hc with hc | hc <;> exact ReaderPc.noConfusion hc

/-! ## The writer at the end of its loop

The writer's knowledge is about an output and not about a reader: whose output it is may be gone by
then, but outputs only grow. That is why the second half of the theorem says that some reader has
put the file out, and no more. -/

/-- Past a check of the writer some reader has put out all that it has read. -/
structure Writer.Given (s : State) (w : Writer) : Prop where
  read : w.task.live = true → w.pc = .read → ∃ r ∈ s.readers, w.file.take w.pos <+: r.out
  last : w.task.live = true → w.pc.filled = true → w.numSymb ≤ 0 → ∃ r ∈ s.readers, w.file <+: r.out
  /-- behind the loop all of the file is put out by one reader, who may be gone since -/
  left : w.pc.leftLoop = true → ∃ r ∈ s.readers, w.file <+: r.out

/-- A writer that stands elsewhere promises nothing. -/
theorem Writer.Given.of_pc (hread : w.pc ≠ .read) (hfilled : w.pc.filled = false)
    (hleft : w.pc.leftLoop = false) : w.Given s where
  read _ hpc := absurd hpc hread
  last _ hpc := by
    rw [hfilled] at hpc
    cases hpc
  left hpc := by
    rw [hleft] at hpc
    cases hpc

/-- The writer learns it at its check, and what is put out stays put out. -/
theorem Writer.Given.next (h : w.Given s) (hnext : WriterNext s t w w')
    (hout : ∀ f : List Byte, (∃ r ∈ s.readers, f <+: r.out) → ∃ r ∈ t.readers, f <+: r.out)
    (hcheck : ∀ v, w.task.life = .running → w.pc = .checkNumProc → s.sems = some v →
      2 ≤ v .numProc → ∃ r ∈ s.readers, r.out = w.file.take w.pos) : w'.Given t := by
  cases hnext with
  | still hk =>
    exact ⟨fun hlive hpc => hout _ (h.read (hk.live hlive) hpc),
      fun hlive hpc hnum => hout _ (h.last (hk.live hlive) hpc hnum),
      fun hpc => hout _ (h.left hpc)⟩
  | @op ops next v v' adj hrun hop hn hv hd =>
    generalize hpc : w.pc = pc at hop
    cases hop with
    | check =>
      have hnum : 0 ≤ (v .numProc : Int) + -2 := (semop_done_head hd).2
      obtain ⟨r, hrm, hr⟩ := hcheck v hrun hpc hv (by omega)
      exact ⟨fun _ _ => hout _ ⟨r, hrm, hr ▸ List.prefix_rfl⟩, fun _ hc => Bool.noConfusion hc,
        fun hc => Bool.noConfusion hc⟩
    | vFullLast =>
      have hlast : w.numSymb ≤ 0 :=
        Int.not_lt.mp fun hpos => WriterPc.noConfusion ((hn hpc).mpr hpos)
      have hall := hout _ (h.last (Task.live_running hrun) (by rw [hpc]; rfl) hlast)
      exact ⟨fun _ hc => WriterPc.noConfusion hc, fun _ hc => Bool.noConfusion hc, fun _ => hall⟩
    | endWr =>
      have hall := hout _ (h.left (by rw [hpc]; rfl))
      exact ⟨fun _ hc => WriterPc.noConfusion hc, fun _ hc => Bool.noConfusion hc, fun _ => hall⟩
    | _ => exact .of_pc WriterPc.noConfusion rfl rfl
  | setval => exact .of_pc WriterPc.noConfusion rfl rfl
  | remove hrun hpc =>
    have hall := hout _ (h.left (by rw [hpc]; rfl))
    exact ⟨fun _ hc => WriterPc.noConfusion hc, fun _ hc => Bool.noConfusion hc, fun _ => hall⟩
  | own hrun hl _ =>
    have hlive := Task.live_running hrun
    cases hl with
    | sleep =>
      exact ⟨fun _ hpc => hout _ (h.read hlive hpc),
        fun _ hpc hnum => hout _ (h.last hlive hpc hnum), fun hpc => hout _ (h.left hpc)⟩
    | openFile => exact .of_pc WriterPc.noConfusion rfl rfl
    | read k hpc hle heof =>
      refine ⟨fun _ hc => WriterPc.noConfusion hc, fun _ _ hz => ?_, fun hc => Bool.noConfusion hc⟩
      have hzero : k = 0 := by
        change (k : Int) ≤ 0 at hz
        omega
      have hall := h.read hlive hpc
      rw [heof hzero, List.take_length] at hall
      exact hout _ hall
    | memcpy hpc | storeNumSymb hpc =>
      exact ⟨fun _ hc => WriterPc.noConfusion hc,
        fun _ _ hnum => hout _ (h.last hlive (by rw [hpc]; rfl) hnum),
        fun hc => Bool.noConfusion hc⟩
    | closeFile hpc | unlinkShm hpc | deleteShm hpc =>
      exact ⟨fun _ hc => WriterPc.noConfusion hc, fun _ hc => Bool.noConfusion hc,
        fun _ => hout _ (h.left (by rw [hpc]; rfl))⟩

/-! ## The system

Five facts beside the invariant of the clean runs. They are not independent: `stored` and `fresh`
need `counted`, and `ends` needs all three at the check of the reader. -/

/-- The invariant of the clean runs, and what has been said here of each process. -/
structure State.WholeFiles (files : List (List Byte)) (s : State) : Prop
    extends State.CleanTransfer files s where
  counted : ∀ w ∈ s.writers, w.Counted
  stored : s.Stored
  fresh : s.Fresh
  ends : ∀ r ∈ s.readers, r.Ends s
  given : ∀ w ∈ s.writers, w.Given s

theorem State.WholeFiles.start (files : List (List Byte)) (n len : Nat) (data : List Byte) :
    (State.start files n len data).WholeFiles files := by
  have hw : ∀ w ∈ (State.start files n len data).writers, ∃ f, w = Writer.start f := by
    intro w hmem
    obtain ⟨f, -, rfl⟩ := List.mem_map.mp hmem
    exact ⟨f, rfl⟩
  have hnum : ∀ f, (Writer.start f).numSymb < 0 := fun _ => by
    change (-1 : Int) < 0
    decide
  refine ⟨.start files n len data, ?_, ?_, ?_, ?_, ?_⟩
  · intro w hwm
    obtain ⟨f, rfl⟩ := hw w hwm
    exact ⟨fun _ => hnum f, fun hc => Bool.noConfusion hc, fun hc => absurd hc (hnum f).ne⟩
  · intro v _ w hwm hstored
    obtain ⟨f, rfl⟩ := hw w hwm
    exact Bool.noConfusion hstored.connected
  · intro v _ _ w hwm r _ hp
    obtain ⟨f, rfl⟩ := hw w hwm
    exact Bool.noConfusion hp
  · intro r hrm
    obtain rfl : r = Reader.start := List.eq_of_mem_replicate hrm
    exact .of_pc ReaderPc.noConfusion ReaderPc.noConfusion ReaderPc.noConfusion rfl
  · intro w hwm
    obtain ⟨f, rfl⟩ := hw w hwm
    exact .of_pc WriterPc.noConfusion rfl rfl

/-- One clean step, for each field by its own lemma. A step changes one process, so for the other
    processes each field is carried over unchanged. -/
theorem State.WholeFiles.step (h : s.WholeFiles files) (hc : Clean s e) (hs : Steps s e t) :
    t.WholeFiles files := by
  have hsound := h.sound
  have htransfer := h.transfer
  have ho := hs.onward htransfer hsound (hsound.step hc hs)
  have hwriter : ∀ w' ∈ t.writers, ∃ w ∈ s.writers, WriterNext s t w w' := by
    intro w' hwm
    obtain ⟨i, hi⟩ := List.mem_iff_getElem?.mp hwm
    obtain ⟨w, hw, hnext⟩ := hs.writer_next hi
    exact ⟨w, List.mem_of_getElem? hw, hnext⟩
  refine ⟨h.toCleanTransfer.step hc hs, ?_, ?_, ?_, ?_, ?_⟩
  · intro w' hwm
    obtain ⟨w, hw, hnext⟩ := hwriter w' hwm
    exact (h.counted w hw).next hnext
  · exact h.stored.step h.counted ho.accounts hs
  · exact h.fresh.step h.counted hsound ho hs
  · intro r' hrm
    obtain ⟨j, hj⟩ := List.mem_iff_getElem?.mp hrm
    obtain ⟨r, hr, hnext⟩ := hs.reader_next hj
    have hr := List.mem_of_getElem? hr
    exact (h.ends r hr).next hnext hs.files_eq (hs.shmLen_of_critical htransfer.excl hr)
      fun v hrun hpc hv htwo hlen => htransfer.check_last h.stored h.fresh h.counted hsound hr hrun
        hpc hv htwo hlen
  · intro w' hwm
    obtain ⟨w, hw, hnext⟩ := hwriter w' hwm
    exact (h.given w hw).next hnext (fun _ => hs.out_mono)
      fun v hrun hpc hv htwo => htransfer.check_given hsound hw hrun hpc hv htwo

/-- **Who gets to the end has transferred all of it.** In a run whose deaths are clean, a reader
    past its loop has put out the whole file of a writer, and the whole file of a writer past its
    loop has been put out by one reader. The two sides are not symmetric: a reader that leaves has a
    whole file, and a writer that leaves knows that somebody has its own. -/
theorem whole_of_run (h : Run State.step Clean (State.start files n len data) es s) :
    (∀ r ∈ s.readers, r.pc.leftLoop = true → r.out ∈ files) ∧
      ∀ w ∈ s.writers, w.pc.leftLoop = true → ∃ r ∈ s.readers, w.file <+: r.out := by
  have hwhole : s.WholeFiles files :=
    h.invariant (.start files n len data) fun _ _ _ hwhole hc hst => hwhole.step hc (step_steps hst)
  refine ⟨fun r hr hpc => ?_, fun w hw hpc => (hwhole.given w hw).left hpc⟩
  rw [← hwhole.files]
  exact (hwhole.ends r hr).left hpc

/-- Writer 0 is killed before it has posted; the reader and writer 1 go on to their ends. The token
    of the first writer is not abandoned, since it has put none out. -/
def secondWriterRun : List Event :=
  cleanRun ++ reads 0 1 ++ writes 1 6 ++ reads 0 7 ++ writes 1 5

/-- At its end both have left their loops, and the theorem says what the reader has put out. -/
theorem whole_of_run_secondWriter : ∃ s,
    Run State.step Clean (State.start [[1], [2]] 1 0 []) secondWriterRun s ∧
      (∃ r ∈ s.readers, r.pc.leftLoop = true ∧ r.out ∈ [[1], [2]]) ∧
      ∃ w ∈ s.writers, w.pc.leftLoop = true ∧ ∃ r ∈ s.readers, w.file <+: r.out := by
  have hexec : (exec State.step Clean secondWriterRun (State.start [[1], [2]] 1 0 [])).any
      (fun s => s.readers.any (·.pc.leftLoop) && s.writers.any (·.pc.leftLoop)) = true := by
    decide
  obtain ⟨s, hrun, hany⟩ := Run.exists_of_exec hexec
  obtain ⟨hreader, hwriter⟩ := Bool.and_eq_true_iff.mp hany
  obtain ⟨r, hr, hleft⟩ := List.any_eq_true.mp hreader
  obtain ⟨w, hw, hleft'⟩ := List.any_eq_true.mp hwriter
  obtain ⟨hreaders, hwriters⟩ := whole_of_run hrun
  exact ⟨s, hrun, ⟨r, hr, hleft, hreaders r hr hleft⟩, w, hw, hleft', hwriters w hw hleft'⟩

end CompTech.Sharmem
