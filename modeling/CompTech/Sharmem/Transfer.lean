import CompTech.Sharmem.Data

/-!
# The steps of the transfer

Every clean step keeps `Transfer`: one lemma for each kind of move, each of which has only to
say what becomes of the process that moves.

The two places where there is something to show are the two ends of a block. When the check of the
reader succeeds there is a connected writer (`exists_connected`), so the two are paired and the
block in the page goes on with what the reader has put out (`check_loads`); from there to its
`write` the reader needs nobody. And when a side posts its token the pair begins, and both have
nothing yet (`held_writer_posts`, `held_reader_posts`). Everywhere else the lemmas say that the
bytes stay what they are, or move from one place to the next.

How a lemma about a move is laid out. A move changes one process, the page and the counters;
`Transfer.writer` and `Transfer.reader` ask of that process, clause by clause, what has become of
it, and answer for all the others. So each lemma first collects what its move leaves alone (the
file, the position, `tmp_buf`, the page) and then goes through these questions. The last of them is
about the pair, and only there does the place in the program matter: the lemmas about operations
split it into one case for each operation, since what an operation does to FULL decides on which
side the block is counted.

Nothing is claimed of a pair that is not complete. In front of its post and behind its end a process
is paired with nobody, and such cases close at once; that is also why a failure or an exit costs so
little here.
-/

namespace CompTech.Sharmem

open Lib

variable {s t : State} {v v' : SEM → Nat} {i j : Nat} {w w' : Writer} {r r' : Reader}

/-- A writer that runs is in the phase of its place. -/
theorem Writer.phase_running (hrun : w.task.life = .running) : w.phase = some w.pc.phase :=
  Task.phase_running hrun _

/-- A reader that runs is in the phase of its place. -/
theorem Reader.phase_running (hrun : r.task.life = .running) : r.phase = some r.pc.phase :=
  Task.phase_running hrun _

/-- For a writer that runs, to be paired is a matter of its place. -/
theorem Writer.paired_running (hrun : w.task.life = .running) : w.paired = w.pc.phase.paired := by
  rw [Writer.paired, Writer.phase_running hrun, Option.any_some]

theorem Reader.paired_running (hrun : r.task.life = .running) : r.paired = r.pc.phase.paired := by
  rw [Reader.paired, Reader.phase_running hrun, Option.any_some, hrun]
  exact Bool.and_true _

/-- The phase of a paired process is that of its program counter. -/
theorem Task.phase_eq {k : Task} {p q : Phase} (h : k.phase p = some q) (hq : q ≠ .ended) :
    q = p := by
  unfold Task.phase at h
  cases hl : k.life with
  | running => rw [hl] at h; exact (Option.some_inj.mp h).symm
  | failing =>
    rw [hl] at h
    by_cases hp : p = .start
    · rw [if_pos hp] at h
      exact absurd (Option.some_inj.mp h).symm hq
    · rw [if_neg hp] at h
      exact (Option.some_inj.mp h).symm
  | dead => rw [hl] at h; cases h

/-- A paired reader is in the phase of its place, running or failing. -/
theorem Reader.phase_of_paired (h : r.paired = true) :
    r.phase = some r.pc.phase ∧ r.pc.phase.paired = true := by
  rw [Reader.paired, Bool.and_eq_true] at h
  obtain ⟨q, hq, hpair⟩ := (Option.any_eq_true _ _).mp h.1
  have hqp : q = r.pc.phase := Task.phase_eq hq (by rintro rfl; cases hpair)
  subst hqp
  exact ⟨hq, hpair⟩

theorem Writer.phase_of_critical (h : w.critical = true) :
    w.phase = some w.pc.phase ∧ w.pc.phase.critical = true := by
  obtain ⟨q, hq, hcrit⟩ := (Option.any_eq_true _ _).mp h
  have hqp : q = w.pc.phase := Task.phase_eq hq (by rintro rfl; cases hcrit)
  subst hqp
  exact ⟨hq, hcrit⟩

theorem Reader.phase_of_critical (h : r.critical = true) :
    r.phase = some r.pc.phase ∧ r.pc.phase.critical = true := by
  obtain ⟨q, hq, hcrit⟩ := (Option.any_eq_true _ _).mp h
  have hqp : q = r.pc.phase := Task.phase_eq hq (by rintro rfl; cases hcrit)
  subst hqp
  exact ⟨hq, hcrit⟩

theorem Writer.phase_of_paired (h : w.paired = true) :
    w.phase = some w.pc.phase ∧ w.pc.phase.paired = true := by
  obtain ⟨q, hq, hpair⟩ := (Option.any_eq_true _ _).mp h
  have hqp : q = w.pc.phase := Task.phase_eq hq (by rintro rfl; cases hpair)
  subst hqp
  exact ⟨hq, hpair⟩

/-- Whoever is connected is active. -/
theorem Phase.active_of_connected {p : Phase} (h : p.connected = true) : p.active = true := by
  cases p <;> first | rfl | cases h

theorem Phase.paired_of_connected {p : Phase} (h : p.connected = true) : p.paired = true := by
  cases p <;> first | rfl | cases h

/-- The block is taken between taking and giving. -/
theorem ReaderPc.critical_of_taking {pc : ReaderPc} (h : pc.taking = true) :
    pc.phase.critical = true := by
  cases pc <;> first | rfl | cases h

/-- Two processes counted by `num_proc` are a connected writer and a connected reader. -/
theorem exists_connected (hacc : Accounts s v) (htwo : 2 ≤ v .numProc) :
    (∃ w ∈ s.writers, w.phase.any Phase.connected = true) ∧
      ∃ r ∈ s.readers, r.phase.any Phase.connected = true := by
  have hboth := hacc.acct.both_connected (show 2 ≤ (s.ctl v).numProc from htwo)
  obtain ⟨hwriters, hreaders⟩ := view_connected s.writerPhases s.readerPhases v
  have hw : 0 < s.writerPhases.countP (·.any Phase.connected) :=
    hwriters ▸ Nat.lt_of_lt_of_eq Nat.zero_lt_one (hboth .left).symm
  have hr : 0 < s.readerPhases.countP (·.any Phase.connected) :=
    hreaders ▸ Nat.lt_of_lt_of_eq Nat.zero_lt_one (hboth .right).symm
  obtain ⟨o, hmem, hconn⟩ := List.countP_pos_iff.mp hw
  obtain ⟨w, hwm, rfl⟩ := List.mem_map.mp hmem
  obtain ⟨o', hmem', hconn'⟩ := List.countP_pos_iff.mp hr
  obtain ⟨r, hrm, rfl⟩ := List.mem_map.mp hmem'
  exact ⟨⟨w, hwm, hconn⟩, r, hrm, hconn'⟩

/-- What the pairing says of two paired processes. -/
theorem slots_of_paired (h : s.Sound) (hv : s.sems = some v) (hg : Guarded (s.ctl v))
    (hwm : w ∈ s.writers) (hrm : r ∈ s.readers) (hw : w.paired = true) (hr : r.paired = true) :
    v .full + v .empty + w.pc.phase.critical.toNat + r.pc.phase.critical.toNat = 1 := by
  obtain ⟨hacc, hsafe⟩ := h v hv
  obtain ⟨i, hi⟩ := List.mem_iff_getElem?.mp hwm
  obtain ⟨j, hj⟩ := List.mem_iff_getElem?.mp hrm
  obtain ⟨hwp, hwpair⟩ := Writer.phase_of_paired hw
  obtain ⟨hrp, hrpair⟩ := Reader.phase_of_paired hr
  exact slots_of_pair hacc (hsafe.paired hg) (State.writer_counts v hi hwp)
    (State.reader_counts v hj hrp) hwpair hrpair

/-- While a side is critical nothing is pending but what it has. -/
theorem pending_nil (hone : v .full + v .empty + w.pc.phase.critical.toNat +
      r.pc.phase.critical.toNat = 1) (hw : w.pc.phase.critical = true)
    (hcopy : w.pc.copying = false) (hpc : w.pc ≠ .vFull) : pending s v w r = [] := by
  rw [hw, Bool.toNat_true] at hone
  have hfull : ¬ 0 < v .full := by omega
  have hr : r.pc.taking = true → False := by
    intro htake
    rw [ReaderPc.critical_of_taking htake, Bool.toNat_true] at hone
    omega
  rw [pending, hcopy, if_neg Bool.false_ne_true, if_neg]
  rintro (h | h | h)
  · exact hpc h
  · exact hfull h
  · exact hr h

/-- In front of `v_full` the block is in the page. -/
theorem pending_vFull (hpc : w.pc = .vFull) : pending s v w r = s.shmBlock := by
  rw [pending, hpc]
  exact (if_neg Bool.false_ne_true).trans (if_pos (.inl rfl))

/-! ## The two sides meet

The lemmas that need both processes. When a side posts, the other one is either not paired or
still waits for its token, for the tokens leave no third possibility.

Both lemmas run the same way. While a process is in front of its post nobody of the other side is
connected (`quiet`), so a paired process of the other side has posted and not gone on: it stands at
its wait. Then neither has been through its loop, FULL is 0, nothing is read and nothing put out,
and the equation of `Held` is between empty lists. -/

/-- Whoever has posted and is not connected waits for the other's token. -/
theorem Phase.eq_posted {p : Phase} (h : p.paired = true) (hc : p.connected = false) :
    p = .posted := by
  cases p <;> first | rfl | exact Bool.noConfusion h | exact Bool.noConfusion hc

theorem ReaderPc.eq_syncRead {pc : ReaderPc} (h : pc.phase = .posted) : pc = .syncRead := by
  cases pc <;> first | rfl | cases h

theorem WriterPc.eq_syncWrite {pc : WriterPc} (h : pc.phase = .posted) : pc = .syncWrite := by
  cases pc <;> first | rfl | cases h

/-- A writer that posts finds a reader that is paired with it still before its first block. -/
theorem held_writer_posts (h : Transfer s) (hsound : s.Sound) (hv : s.sems = some v)
    (hg : Guarded (s.ctl v)) (hw : s.writers[i]? = some w) (hphase : w.phase = some .post)
    (hpc : w.pc.phase = .post) (hfull : v' .full = v .full) (hpc' : w'.pc = .syncWrite)
    (hpos : w'.pos = w.pos) (hr : r ∈ s.readers) (hpr : r.paired = true) : Held t v' w' r := by
  obtain ⟨hacc, hsafe⟩ := hsound v hv
  have hpaired := hsafe.paired hg
  obtain ⟨hrp, hrpair⟩ := Reader.phase_of_paired hpr
  obtain ⟨j, hj⟩ := List.mem_iff_getElem?.mp hr
  obtain ⟨-, hconn, -, -⟩ :=
    count_of_active hacc.acct (State.reader_counts v hj hrp) (Phase.active_of_paired hrpair)
  obtain ⟨-, -, -, hpost⟩ :=
    count_of_active hacc.acct (State.writer_counts v hw hphase) (by rfl)
  rw [if_pos rfl] at hpost
  have hquiet := (hpaired.tokens .left).quiet
  simp only [Side.other] at hquiet
  have hnot : r.pc.phase.connected = false := by
    rw [← Bool.toNat_eq_zero]
    omega
  have hzero : v .full = 0 := (hpaired.slots .left).slot_post hpost
  have hrposted := Phase.eq_posted hrpair hnot
  have hrpc := ReaderPc.eq_syncRead hrposted
  have hout := h.unwritten r hr (by rw [hrposted]; rfl)
  have hpos₀ := h.unread w (List.mem_of_getElem? hw) (by rw [hpc]; rfl)
  have hnone : pending t v' w' r = [] := by
    rw [pending, hpc', hfull, hzero, hrpc]
    rfl
  rw [Held, hnone, hout, hpos, hpos₀]
  rfl

theorem held_reader_posts (h : Transfer s) (hsound : s.Sound) (hv : s.sems = some v)
    (hg : Guarded (s.ctl v)) (hr : s.readers[j]? = some r) (hphase : r.phase = some .post)
    (hpc : r.pc.phase = .post) (hfull : v' .full = v .full) (hpc' : r'.pc = .syncRead)
    (hout : r'.out = r.out) (hw : w ∈ s.writers) (hpw : w.paired = true) : Held t v' w r' := by
  obtain ⟨hacc, hsafe⟩ := hsound v hv
  have hpaired := hsafe.paired hg
  obtain ⟨hwp, hwpair⟩ := Writer.phase_of_paired hpw
  obtain ⟨i, hi⟩ := List.mem_iff_getElem?.mp hw
  obtain ⟨hposted, hconn, -, -⟩ :=
    count_of_active hacc.acct (State.writer_counts v hi hwp) (Phase.active_of_paired hwpair)
  obtain ⟨hposted', hconn', -, hpost⟩ :=
    count_of_active hacc.acct (State.reader_counts v hr hphase) (by rfl)
  rw [if_pos rfl] at hpost
  have hquiet := (hpaired.tokens .right).quiet
  simp only [Side.other] at hquiet
  have hnot : w.pc.phase.connected = false := by
    rw [← Bool.toNat_eq_zero]
    omega
  have hwposted := Phase.eq_posted hwpair hnot
  have hwpc := WriterPc.eq_syncWrite hwposted
  rw [hwposted, if_pos rfl] at hposted
  have hzero : v .full = 0 := by
    refine (hpaired.slots .left).slot_posted hposted ?_
    simp only [Side.other]
    rw [hposted', hconn', if_neg Phase.noConfusion]
    rfl
  have hout₀ := h.unwritten r (List.mem_of_getElem? hr) (by rw [hpc]; rfl)
  have hpos₀ := h.unread w hw (by rw [hwposted]; rfl)
  have hnone : pending t v' w r' = [] := by
    rw [pending, hwpc, hfull, hzero, hpc']
    rfl
  rw [Held, hnone, hout, hout₀, hpos₀]
  rfl

/-! ## The pages that stand in FULL

How many blocks wait in the page is the value of FULL, which is 0 or 1. A call that does not touch
the set leaves it. So does an exit with no adjustment to undo there: the reader never has one, and
of the writers only a connected one has, which is the case that the lemma about their exit treats.
-/

/-- A step that leaves the set leaves FULL. -/
theorem full_of_sems_eq (h : t.sems = s.sems) : ∀ v v', s.sems = some v → t.sems = some v' →
    v' .full = v .full := by
  intro v v' hv hv'
  rw [h, hv] at hv'
  rw [Option.some_inj.mp hv']

/-- The exit of a process that has nothing to undo there. -/
theorem Accounts.full_of_exit {adj : SEM → Int} (hacc : Accounts s v) (hadj : adj .full = 0)
    (h : t.sems = s.sems.map fun v => undoExit v adj) (hv : s.sems = some v)
    (hv' : t.sems = some v') : v' .full = v .full := by
  rw [h, hv, Option.map_some] at hv'
  obtain rfl := Option.some_inj.mp hv'
  exact undoExit_of_eq_zero hadj (hacc.le_max .full)

/-! ## The writer

One lemma for each kind of move of a writer (`WriterMove`). -/

section Writers

variable (h : Transfer s) (ho : Onward s t) (hw : s.writers[i]? = some w)
include h ho hw

/-- A completed operation of the writer. `syncRead` begins the pair, `vFull` hands over a block that
    is in the page already, and the others move nothing. The lemma is about any operation that
    completes; `WriterOp` lists them, and one after which the writer is not paired, in front of the
    post or at the end, has nothing to show. -/
theorem Transfer.writerSemop (hsound : s.Sound) (hrun : w.task.life = .running)
    {ops : List (Sembuf SEM)} {next : WriterPc} {adj : SEM → Int} (hop : WriterOp w.pc ops next)
    (hv : s.sems = some v) (hd : semop ops v w.task.adj = .done v' adj)
    (hw' : w' = { w with task := { w.task with adj := adj, asleep := false }, pc := next })
    (ht : t = { s with sems := some v' }.setWriter i w') : Transfer t := by
  have hmem := List.mem_of_getElem? hw
  have hpc' : w'.pc = next := by rw [hw']
  have hrun' : w'.task.life = .running := by rw [hw']; exact hrun
  have hpos : w'.pos = w.pos := by rw [hw']
  have hbuf : w'.tmpBuf = w.tmpBuf := by rw [hw']
  have hfile : w'.file = w.file := by rw [hw']
  have hsems : t.sems = some v' := by rw [ht]; rfl
  have hblock : t.shmBlock = s.shmBlock := by rw [ht]; rfl
  have hbefore : next.phase.before = true → w.pc.phase.before = true := by
    generalize w.pc = pc at hop
    cases hop <;> intro hb <;> first | rfl | cases hb
  have hcopy : next.copying = false ∧ w.pc.copying = false := by
    generalize w.pc = pc at hop
    cases hop <;> exact ⟨rfl, rfl⟩
  have hactive : w.pc.phase.active = true ∨ next.phase.active = true := by
    generalize w.pc = pc at hop
    cases hop <;> first | exact .inl rfl | exact .inr rfl
  have hws : t.writers = s.writers.set i w' := by rw [ht]; rfl
  refine h.writer ho hw hws (by rw [ht]; rfl) hfile ?_
    (.inl ⟨by rw [ht]; rfl, by rw [ht]; rfl⟩) ?_ ?_ ?_
  · intro hb
    rw [hpos]
    exact h.unread w hmem (hbefore (hpc' ▸ hb))
  · intro hidle hidle'
    rw [Writer.phase_running hrun, Option.any_some] at hidle
    rw [Writer.phase_running hrun', Option.any_some, hpc'] at hidle'
    rcases hactive with ha | ha
    · rw [ha] at hidle
      cases hidle
    · rw [ha] at hidle'
      cases hidle'
  · intro _ _ _
    refine ⟨fun hc => ?_, fun hs => ?_⟩
    · rw [hpc', hcopy.1] at hc
      cases hc
    · have hc : w'.pc.copying = true := by rw [hs]; rfl
      rw [hpc', hcopy.1] at hc
      cases hc
  · intro v₀ v₁ hv₀ hv₁ hg hpw r hr hpr
    obtain rfl := Option.some_inj.mp (hv₀.symm.trans hv)
    obtain rfl := Option.some_inj.mp (hv₁.symm.trans hsems)
    rw [Writer.paired_running hrun', hpc'] at hpw
    have hkeep : w.pc.phase.paired = true →
        ((w'.pc = .vFull ∨ 0 < v₁ .full ∨ r.pc.taking = true) ↔
          (w.pc = .vFull ∨ 0 < v₀ .full ∨ r.pc.taking = true)) → Held t v₁ w' r := by
      intro hpair hor
      have hold := h.held v₀ hv₀ hg w hmem r hr ((Writer.paired_running hrun).trans hpair) hpr
      unfold Held at hold ⊢
      rw [pending_congr ((congrArg _ hpc').trans (hcopy.1.trans hcopy.2.symm)) hbuf hblock hor,
        hfile, hpos]
      exact hold
    rw [hpc'] at hkeep
    generalize hpc : w.pc = pc at hop hkeep
    -- the operations, one by one
    cases hop with
    | alone => cases hpw
    | wait => cases hpw
    | endWr => cases hpw
    | syncRead =>
      have hphase : w.phase = some .post := by rw [Writer.phase_running hrun, hpc]; rfl
      exact held_writer_posts h hsound hv₀ hg hw hphase (by rw [hpc]; rfl)
        (semop_unchanged hd rfl) hpc' hpos hr hpr
    | syncWrite =>
      refine hkeep rfl ?_
      rw [semop_unchanged hd rfl]
      simp
    | pEmpty =>
      refine hkeep rfl ?_
      rw [semop_unchanged hd rfl]
      simp
    | check =>
      refine hkeep rfl ?_
      rw [semop_unchanged hd rfl]
      simp
    | vFull =>
      -- the block is in the page before and after the post
      refine hkeep rfl ?_
      rw [semop_succ hd rfl]
      simp
    | vFullLast =>
      refine hkeep rfl ?_
      rw [semop_succ hd rfl]
      simp

/-- The writer goes on to `w'`, with nothing changed that the page or the reader sees. The
    hypotheses are the answers to the questions of `Transfer.writer` for the case that the writer's
    part of the account is the same before and after: where it counts the block depends on its place
    only through `copying` and `vFull`. -/
theorem Transfer.writerKeeps (hws : t.writers = s.writers.set i w') (hrs : t.readers = s.readers)
    (hlen : t.shmLen = s.shmLen) (hdata : t.shmData = s.shmData) (hfile : w'.file = w.file)
    (hpos : w'.pos = w.pos) (hbuf : w'.tmpBuf = w.tmpBuf) (hnum : w'.numSymb = w.numSymb)
    (hbefore : w'.pc.phase.before = true → w.pc.phase.before = true)
    (hcopy : w'.pc.copying = w.pc.copying) (hst : w'.pc = .storeNumSymb → w.pc = .storeNumSymb)
    (hvFull : w'.pc = .vFull ↔ w.pc = .vFull) (hlive : w'.task.live = true → w.task.live = true)
    (hpair : w'.paired = true → w.paired = true)
    (hfull : ∀ v v', s.sems = some v → t.sems = some v' →
      w.phase.any Phase.active = false ∨ w'.paired = true → v' .full = v .full) : Transfer t := by
  have hmem := List.mem_of_getElem? hw
  have hblock : t.shmBlock = s.shmBlock := by rw [State.shmBlock, hlen, hdata]; rfl
  refine h.writer ho hw hws hrs hfile ?_ (.inl ⟨hlen, hdata⟩) ?_ ?_ ?_
  · intro hb
    rw [hpos]
    exact h.unread w hmem (hbefore hb)
  · exact fun hidle _ v v' hv hv' => hfull v v' hv hv' (.inl hidle)
  · intro v hv hl
    have hc := h.copied v hv w hmem (hlive hl)
    refine ⟨fun hcp => ?_, fun hs => ?_⟩
    · rw [hnum, hbuf]
      exact hc.length (hcopy ▸ hcp)
    · rw [hdata, hbuf]
      exact hc.data (hst hs)
  · intro v v' hv hv' hg hpw r hr hpr
    have hold := h.held v hv hg w hmem r hr (hpair hpw) hpr
    unfold Held at hold ⊢
    rw [pending_congr hcopy hbuf hblock (by rw [hvFull, hfull v v' hv hv' (.inr hpw)]), hfile, hpos]
    exact hold

/-- A writer that fails is where it was, and so is its block. -/
theorem Transfer.writerFail (hrun : w.task.life = .running) (ht : t = s.setWriter i w.fail) :
    Transfer t := by
  have hws : t.writers = s.writers.set i w.fail := by rw [ht]; rfl
  have hpair : w.fail.paired = true → w.paired = true := by
    intro hp
    rw [Writer.paired_running hrun]
    exact (Writer.phase_of_paired hp).2
  refine h.writerKeeps ho hw hws (by rw [ht]; rfl) (by rw [ht]; rfl) (by rw [ht]; rfl) rfl rfl rfl
    rfl id rfl id Iff.rfl (fun _ => Task.live_running hrun) hpair ?_
  exact fun v v' hv hv' _ => full_of_sems_eq (show t.sems = s.sems by rw [ht]; rfl) v v' hv hv'

/-- A writer that is gone is paired with nobody. If it was connected its exit changes FULL, which is
    a matter for the readers of its pair only, and there is none after it. -/
theorem Transfer.writerExit (hlive : w.task.live = true) (ht : t = s.exitWriter i w) :
    Transfer t := by
  have hws : t.writers = s.writers.set i { w with task := w.task.gone } := by rw [ht]; rfl
  refine h.writerKeeps ho hw hws (by rw [ht]; rfl) (by rw [ht]; rfl) (by rw [ht]; rfl) rfl rfl rfl
    rfl id rfl id Iff.rfl (fun _ => hlive) (fun hp => Bool.noConfusion hp) ?_
  rintro v v' hv hv' (hidle | hp)
  · have hacc := ho.accounts v hv
    obtain ⟨q, hq, hor⟩ := Task.phase_some (p := w.pc.phase) hlive
    have hwq : w.phase = some q := hq
    rw [hwq, Option.any_some] at hidle
    have hconn : w.pc.phase.connected = false := by
      rcases hor with rfl | ⟨hstart, -⟩
      · cases hc : w.pc.phase.connected with
        | false => rfl
        | true => rw [Phase.active_of_connected hc] at hidle; cases hidle
      · rw [hstart]
        rfl
    have hadj : w.task.adj .full = 0 := by
      rw [hacc.writers w (List.mem_of_getElem? hw) hlive, adjWr, hconn]
      rfl
    exact hacc.full_of_exit hadj (by rw [ht]; rfl) hv hv'
  · cases hp

/-- With the set gone there is nothing left to hand over. -/
theorem Transfer.writerRemove
    (ht : t = { s with sems := none }.setWriter i { w with pc := .returned }) : Transfer t := by
  have hws : t.writers = s.writers.set i { w with pc := .returned } := by rw [ht]; rfl
  have hnone : ∀ {v : SEM → Nat} {P : Prop}, t.sems = some v → P := by
    intro v P hv
    rw [ht] at hv
    cases hv
  refine h.writer ho hw hws (by rw [ht]; rfl) rfl (fun hb => Bool.noConfusion hb)
    (.inl ⟨by rw [ht]; rfl, by rw [ht]; rfl⟩) (fun _ _ _ _ _ hv' => hnone hv') ?_
    (fun _ _ _ hv' => hnone hv')
  intro _ _ _
  exact ⟨fun hc => Bool.noConfusion hc, fun hc => WriterPc.noConfusion hc⟩

/-- The way of a block through the writer: from the file to `tmp_buf`, to the page, and then its
    length. At each of these steps the writer is critical, so no reader looks. The three moves are
    the three places of a block before `v_full`: after `read` it is in the buffer of the writer,
    after the copy it is in the page too, and with the length stored the page has it. The account
    counts it once all the time (`pending`). -/
theorem Transfer.writerLocal (hsound : s.Sound) (hrun : w.task.life = .running) {shmLen : Nat}
    {shmData : List Byte} (hl : WriterLocal s w w' shmLen shmData)
    (ht : t = { s with shmLen := shmLen, shmData := shmData }.setWriter i w') : Transfer t := by
  have hmem := List.mem_of_getElem? hw
  have hws : t.writers = s.writers.set i w' := by rw [ht]; rfl
  have hrs : t.readers = s.readers := by rw [ht]; rfl
  have hlen : t.shmLen = shmLen := by rw [ht]; rfl
  have hdata : t.shmData = shmData := by rw [ht]; rfl
  have hfull := full_of_sems_eq (show t.sems = s.sems by rw [ht]; rfl)
  obtain ⟨hphase, -, hlife, -⟩ := hl.kept
  have hrun' : w'.task.life = .running := hlife.trans hrun
  have hlive : w'.task.live = true → w.task.live = true := fun _ => Task.live_running hrun
  have hpair : w'.paired = true → w.paired = true := by
    rw [Writer.paired_running hrun, Writer.paired_running hrun', hphase]
    exact id
  have hpair' := Writer.paired_running hrun
  have hnotActive : w.pc.phase.active = true → w.phase.any Phase.active = false → False := by
    intro ha hidle
    rw [Writer.phase_running hrun, Option.any_some, ha] at hidle
    cases hidle
  cases hl with
  | sleep =>
    exact h.writerKeeps ho hw hws hrs hlen hdata rfl rfl rfl rfl id rfl id Iff.rfl hlive hpair
      fun v v' hv hv' _ => hfull v v' hv hv'
  | openFile hpc | closeFile hpc | unlinkShm hpc | deleteShm hpc =>
    refine h.writerKeeps ho hw hws hrs hlen hdata rfl rfl rfl rfl ?_ ?_ ?_ ?_ hlive hpair
      fun v v' hv hv' _ => hfull v v' hv hv' <;> rw [hpc] <;> simp [WriterPc.phase, Phase.before,
      WriterPc.copying]
  | read k hpc hk heof =>
    refine h.writer ho hw hws hrs rfl (fun hb => Bool.noConfusion hb) (.inl ⟨hlen, hdata⟩)
      (fun hidle => (hnotActive (by rw [hpc]; rfl) hidle).elim) ?_ ?_
    · intro _ _ _
      refine ⟨fun _ => ?_, fun hc => WriterPc.noConfusion hc⟩
      change (k : Int) = ((w.file.drop w.pos).take k).length
      rw [List.length_take, List.length_drop, Nat.min_eq_left (by omega)]
    · intro v v' hv hv' hg hpw r hr hpr
      rw [hpc] at hpair'
      have hone := slots_of_paired hsound hv hg hmem hr hpair' hpr
      have hold := h.held v hv hg w hmem r hr hpair' hpr
      rw [Held, pending_nil hone (by rw [hpc]; rfl) (by rw [hpc]; rfl) (by rw [hpc]; decide),
        List.append_nil] at hold
      change r.out ++ (w.file.drop w.pos).take k = w.file.take (w.pos + k)
      rw [hold, List.take_add]
  | memcpy hpc =>
    refine h.writer ho hw hws hrs rfl (fun hb => Bool.noConfusion hb) (.inr ?_)
      (fun hidle => (hnotActive (by rw [hpc]; rfl) hidle).elim) ?_ ?_
    · exact Writer.critical_of_copying (Task.live_running hrun') rfl
    · intro v hv _
      have hc := h.copied v hv w hmem (Task.live_running hrun)
      refine ⟨fun _ => hc.length (by rw [hpc]; rfl), fun _ => ?_⟩
      rw [hdata]
      exact List.take_left' rfl
    · intro v v' hv hv' hg hpw r hr hpr
      rw [hpc] at hpair'
      have hold := h.held v hv hg w hmem r hr hpair' hpr
      rw [Held, pending, hpc] at hold
      exact hold
  | storeNumSymb hpc =>
    refine h.writer ho hw hws hrs rfl (fun hb => Bool.noConfusion hb) (.inr ?_)
      (fun hidle => (hnotActive (by rw [hpc]; rfl) hidle).elim) ?_ ?_
    · rw [Writer.critical, Writer.phase_running hrun']
      rfl
    · intro _ _ _
      exact ⟨fun hc => Bool.noConfusion hc, fun hc => WriterPc.noConfusion hc⟩
    · intro v v' hv hv' hg hpw r hr hpr
      rw [hpc] at hpair'
      have hc := h.copied v hv w hmem (Task.live_running hrun)
      have hold := h.held v hv hg w hmem r hr hpair' hpr
      have hblock : t.shmBlock = w.tmpBuf := by
        rw [State.shmBlock, hlen, hdata, hc.length (by rw [hpc]; rfl)]
        exact hc.data hpc
      rw [Held, pending, hpc] at hold
      rw [Held, pending_vFull rfl, hblock]
      exact hold

end Writers

/-! ## The reader

And for a reader. -/

section Readers

variable (h : Transfer s) (hr : s.readers[j]? = some r)
include h hr

/-- A check that succeeds finds a block that goes on with what the reader has put out. The pair is
    not among the hypotheses: a counter of at least 2 says that a writer is connected, and a reader
    at its check is paired with whoever that is. With the reader critical the tokens leave nothing
    for the writer to copy, so the block in the page is the one that is pending. -/
theorem Transfer.check_loads (hsound : s.Sound) (hrun : r.task.life = .running)
    (hpc : r.pc = .checkNumProc) (hv : s.sems = some v) (htwo : 2 ≤ v .numProc) :
    ∃ f ∈ s.files, r.out ++ s.shmBlock <+: f := by
  obtain ⟨hacc, hsafe⟩ := hsound v hv
  have hrm := List.mem_of_getElem? hr
  obtain ⟨w, hwm, hconn⟩ := (exists_connected hacc htwo).1
  have hpw : w.paired = true := by
    obtain ⟨q, hq, hc⟩ := (Option.any_eq_true _ _).mp hconn
    rw [Writer.paired, hq, Option.any_some]
    exact Phase.paired_of_connected hc
  have hpr : r.paired = true := by
    rw [Reader.paired_running hrun, hpc]
    rfl
  have hg : Guarded (s.ctl v) := hacc.acct.guarded htwo
  have hone := slots_of_paired hsound hv hg hwm hrm hpw hpr
  have hold := h.held v hv hg w hwm r hrm hpw hpr
  have hcopy : w.pc.copying = false := by
    rw [Bool.eq_false_iff]
    intro hcopy
    rw [WriterPc.critical_of_copying hcopy, hpc] at hone
    change v .full + v .empty + 1 + 1 = 1 at hone
    omega
  have htake : r.pc.taking = true := by rw [hpc]; rfl
  rw [Held, pending, hcopy, if_neg Bool.false_ne_true, if_pos (.inr (.inr htake))] at hold
  exact ⟨w.file, List.mem_map_of_mem hwm, hold ▸ List.take_prefix _ _⟩

/-- A reader that has put out nothing more has the pairs it had. -/
theorem Transfer.held_kept (hout : r'.out = r.out) (hblock : t.shmBlock = s.shmBlock)
    (hv : s.sems = some v) (hg : Guarded (s.ctl v)) (hpr : r.paired = true) (hwm : w ∈ s.writers)
    (hpw : w.paired = true)
    (hor : (w.pc = .vFull ∨ 0 < v' .full ∨ r'.pc.taking = true) ↔
      (w.pc = .vFull ∨ 0 < v .full ∨ r.pc.taking = true)) : Held t v' w r' := by
  have hold := h.held v hv hg w hwm r (List.mem_of_getElem? hr) hpw hpr
  unfold Held at hold ⊢
  rw [pending_congr rfl rfl hblock hor, hout]
  exact hold

variable (ho : Onward s t)
include ho

/-- The reader goes on to `r'`, with nothing changed but its place. What is asked of a place depends
    on the place: at the load and at the `write` the block in the page must go on with a file, and
    at the `write` the length must be the one in the page. -/
theorem Transfer.readerKeeps (hws : t.writers = s.writers) (hrs : t.readers = s.readers.set j r')
    (hlen : t.shmLen = s.shmLen) (hdata : t.shmData = s.shmData) (hout : r'.out = r.out)
    (hbefore : r'.pc.phase.before = true → r.pc.phase.before = true)
    (hrun : r'.task.life = .running → r'.pc = .load ∨ r'.pc = .write →
      ∃ f ∈ s.files, r.out ++ s.shmBlock <+: f)
    (hlength : r'.task.life = .running → r'.pc = .write → r'.numSymb = s.shmLen)
    (hfull : r.phase.any Phase.active = false → r'.phase.any Phase.active = false →
      ∀ v v', s.sems = some v → t.sems = some v' → v' .full = v .full)
    (hheld : ∀ v v', s.sems = some v → t.sems = some v' → Guarded (s.ctl v) → r'.paired = true →
      ∀ w ∈ s.writers, w.paired = true → Held t v' w r') : Transfer t := by
  have hmem := List.mem_of_getElem? hr
  refine h.reader ho hr hws hrs hlen hdata ?_ ?_ ?_ hlength hfull hheld
  · rw [hout]
    exact h.out r hmem
  · intro hb
    rw [hout]
    exact h.unwritten r hmem (hbefore hb)
  · intro hl hpc
    rw [hout]
    exact hrun hl hpc

/-- A completed operation of the reader. `syncWrite` begins the pair, the check loads a block,
    `vEmpty` gives back a page whose block is put out. The one operation after which something new
    is claimed is the check, and `check_loads` is what it needs. -/
theorem Transfer.readerSemop (hsound : s.Sound) (hrun : r.task.life = .running)
    {ops : List (Sembuf SEM)} {next : ReaderPc} {adj : SEM → Int} (hop : ReaderOp r.pc ops next)
    (hv : s.sems = some v) (hd : semop ops v r.task.adj = .done v' adj)
    (hr' : r' = { r with task := { r.task with adj := adj, asleep := false }, pc := next })
    (ht : t = { s with sems := some v' }.setReader j r') : Transfer t := by
  have hpc' : r'.pc = next := by rw [hr']
  have hrun' : r'.task.life = .running := by rw [hr']; exact hrun
  have hout : r'.out = r.out := by rw [hr']
  have hsems : t.sems = some v' := by rw [ht]; rfl
  have hblock : t.shmBlock = s.shmBlock := by rw [ht]; rfl
  have hbefore : next.phase.before = true → r.pc.phase.before = true := by
    generalize r.pc = pc at hop
    cases hop <;> intro hb <;> first | rfl | cases hb
  have hactive : r.pc.phase.active = true ∨ next.phase.active = true := by
    generalize r.pc = pc at hop
    cases hop <;> first | exact .inl rfl | exact .inr rfl
  have hnext : next ≠ .write ∧ (next = .load → r.pc = .checkNumProc ∧ 2 ≤ v .numProc) := by
    generalize r.pc = pc at hop
    -- the operations, one by one
    cases hop with
    | check =>
      have hnum : 0 ≤ (v .numProc : Int) + -2 := (semop_done_head hd).2
      exact ⟨ReaderPc.noConfusion, fun _ => ⟨rfl, by omega⟩⟩
    | _ => exact ⟨ReaderPc.noConfusion, fun hc => ReaderPc.noConfusion hc⟩
  have hrs : t.readers = s.readers.set j r' := by rw [ht]; rfl
  refine h.readerKeeps hr ho (by rw [ht]; rfl) hrs (by rw [ht]; rfl) (by rw [ht]; rfl) hout
    (fun hb => hbefore (hpc' ▸ hb)) ?_ ?_ ?_ ?_
  · intro _ hpc
    rw [hpc'] at hpc
    obtain ⟨hcheck, htwo⟩ := hnext.2 (hpc.resolve_right hnext.1)
    exact h.check_loads hr hsound hrun hcheck hv htwo
  · intro _ hpc
    exact absurd (hpc'.symm.trans hpc) hnext.1
  · intro hidle hidle'
    rw [Reader.phase_running hrun, Option.any_some] at hidle
    rw [Reader.phase_running hrun', Option.any_some, hpc'] at hidle'
    rcases hactive with ha | ha
    · rw [ha] at hidle
      cases hidle
    · rw [ha] at hidle'
      cases hidle'
  · intro v₀ v₁ hv₀ hv₁ hg hpr w hwm hpw
    obtain rfl := Option.some_inj.mp (hv₀.symm.trans hv)
    obtain rfl := Option.some_inj.mp (hv₁.symm.trans hsems)
    rw [Reader.paired_running hrun', hpc'] at hpr
    have hkeep : r.pc.phase.paired = true →
        ((w.pc = .vFull ∨ 0 < v₁ .full ∨ r'.pc.taking = true) ↔
          (w.pc = .vFull ∨ 0 < v₀ .full ∨ r.pc.taking = true)) → Held t v₁ w r' :=
      fun hpair hor => h.held_kept hr hout hblock hv₀ hg
        ((Reader.paired_running hrun).trans hpair) hwm hpw hor
    rw [hpc'] at hkeep
    generalize hpc : r.pc = pc at hop hkeep
    cases hop with
    | alone => cases hpr
    | wait => cases hpr
    | endRd => cases hpr
    | syncWrite =>
      have hphase : r.phase = some .post := by rw [Reader.phase_running hrun, hpc]; rfl
      exact held_reader_posts h hsound hv₀ hg hr hphase (by rw [hpc]; rfl)
        (semop_unchanged hd rfl) hpc' hout hwm hpw
    | syncRead =>
      refine hkeep rfl ?_
      rw [semop_unchanged hd rfl]
      simp [ReaderPc.taking]
    | pFull =>
      -- FULL goes down, and the block is the reader's
      have hone : 0 ≤ (v₀ .full : Int) + -1 := (semop_done_head hd).2
      have hpos : 0 < v₀ .full := by omega
      exact hkeep rfl ⟨fun _ => .inr (.inl hpos), fun _ => .inr (.inr rfl)⟩
    | check => exact hkeep rfl ⟨fun _ => .inr (.inr rfl), fun _ => .inr (.inr rfl)⟩
    | vEmpty =>
      refine hkeep rfl ?_
      rw [semop_unchanged hd rfl]
      simp [ReaderPc.taking]
    | vEmptyLast =>
      refine hkeep rfl ?_
      rw [semop_unchanged hd rfl]
      simp [ReaderPc.taking]

/-- A reader that is gone is paired with nobody. -/
theorem Transfer.readerExit (hlive : r.task.live = true) (ht : t = s.exitReader j r) :
    Transfer t := by
  have hrs : t.readers = s.readers.set j { r with task := r.task.gone } := by rw [ht]; rfl
  refine h.readerKeeps hr ho (by rw [ht]; rfl) hrs (by rw [ht]; rfl) (by rw [ht]; rfl) rfl id
    (fun hl => Life.noConfusion hl) (fun hl => Life.noConfusion hl) ?_
    (fun _ _ _ _ _ hpr => Bool.noConfusion hpr)
  intro _ _ v v' hv hv'
  have hacc := ho.accounts v hv
  have hadj : r.task.adj .full = 0 :=
    hacc.readers r (List.mem_of_getElem? hr) hlive .full (.inl SEM.noConfusion)
  exact hacc.full_of_exit hadj (by rw [ht]; rfl) hv hv'

/-- The load takes the length of the block that is there, and the `write` puts it out: what was
    pending is now in the output. That it was the pending one follows from the tokens: with the
    reader critical the writer is not, so it copies nothing. -/
theorem Transfer.readerLocal (hsound : s.Sound) (hrun : r.task.life = .running)
    (hl : ReaderLocal s r r') (ht : t = s.setReader j r') : Transfer t := by
  have hrm := List.mem_of_getElem? hr
  have hws : t.writers = s.writers := by rw [ht]; rfl
  have hrs : t.readers = s.readers.set j r' := by rw [ht]; rfl
  have hlen : t.shmLen = s.shmLen := by rw [ht]; rfl
  have hdata : t.shmData = s.shmData := by rw [ht]; rfl
  have hblock : t.shmBlock = s.shmBlock := by rw [ht]; rfl
  have hfull := full_of_sems_eq (show t.sems = s.sems by rw [ht]; rfl)
  have hpair := Reader.paired_running hrun
  cases hl with
  | sleep =>
    have hpair' : ({ r with task := r.task.sleep } : Reader).paired = r.paired := rfl
    refine h.readerKeeps hr ho hws hrs hlen hdata rfl id (h.loaded r hrm) (h.length r hrm)
      (fun _ _ => hfull) fun v v' hv hv' hg hpr w hwm hpw => ?_
    exact h.held_kept hr rfl hblock hv hg (hpair' ▸ hpr) hwm hpw (by rw [hfull v v' hv hv'])
  | load hpc =>
    refine h.readerKeeps hr ho hws hrs hlen hdata rfl (fun hb => Bool.noConfusion hb) ?_
      (fun _ _ => rfl) (fun _ _ => hfull) fun v v' hv hv' hg hpr w hwm hpw => ?_
    · exact fun hl _ => h.loaded r hrm hl (.inl hpc)
    · rw [hpc] at hpair
      refine h.held_kept hr rfl hblock hv hg hpair hwm hpw ?_
      have htake : r.pc.taking = true := by rw [hpc]; rfl
      exact ⟨fun _ => .inr (.inr htake), fun _ => .inr (.inr rfl)⟩
  | write hpc =>
    have hnum : s.outBlock r = s.shmBlock := by
      rw [State.outBlock, h.length r hrm hrun hpc]
      rfl
    have hout := h.loaded r hrm hrun (.inr hpc)
    refine h.reader ho hr hws hrs hlen hdata (.inr ?_) (fun hb => Bool.noConfusion hb)
      (fun _ hc => ?_) (fun _ hc => ReaderPc.noConfusion hc) (fun _ _ => hfull)
      fun v v' hv hv' hg hpr w hwm hpw => ?_
    · change ∃ f ∈ s.files, r.out ++ s.outBlock r <+: f
      rw [hnum]
      exact hout
    · rcases hc with hc | hc <;> cases hc
    · -- the reader has the only block there is
      rw [hpc] at hpair
      have hone := slots_of_paired hsound hv hg hwm hrm hpw hpair
      have hold := h.held v hv hg w hwm r hrm hpw hpair
      have hcrit : r.pc.phase.critical = true := by rw [hpc]; rfl
      rw [hcrit, Bool.toNat_true] at hone
      have hwc : w.pc.phase.critical = false := by
        rw [← Bool.toNat_eq_zero]
        omega
      have hcopy : w.pc.copying = false := by
        rw [Bool.eq_false_iff]
        intro hcopy
        rw [WriterPc.critical_of_copying hcopy] at hwc
        cases hwc
      have hnot : ¬(w.pc = .vFull ∨ 0 < v' .full ∨ ReaderPc.taking .vEmpty = true) := by
        rintro (hp | hp | hp)
        · rw [hp] at hwc
          cases hwc
        · rw [hfull v v' hv hv'] at hp
          omega
        · cases hp
      have htake : r.pc.taking = true := by rw [hpc]; rfl
      rw [Held, pending, hcopy, if_neg Bool.false_ne_true, if_pos (.inr (.inr htake))] at hold
      rw [Held, pending, hcopy, if_neg Bool.false_ne_true, if_neg hnot, List.append_nil, ← hold,
        ← hnum]
  | unlinkShm hpc =>
    refine h.readerKeeps hr ho hws hrs hlen hdata rfl (fun hb => Bool.noConfusion hb) ?_
      (fun _ hc => ReaderPc.noConfusion hc) (fun _ _ => hfull) fun v v' hv hv' hg hpr => ?_
    · intro _ hc
      rcases hc with hc | hc <;> cases hc
    · exact Bool.noConfusion (Reader.phase_of_paired hpr).2

/-- A `write` that fails may have put out a part of the block, which is still the beginning of a
    file; but then the reader is no longer `paired`. -/
theorem Transfer.readerFail {k : Nat} (hrun : r.task.life = .running)
    (ht : t = s.setReader j r.fail ∨ t = s.failReader j r k) : Transfer t := by
  have hrm := List.mem_of_getElem? hr
  -- a failed `write` has put out a part of the block
  have hcases : ∃ r', t = s.setReader j r' ∧ r'.task = r.task.fail ∧ r'.pc = r.pc ∧
      (r'.out = r.out ∨ r.pc = .write ∧ r'.out = r.out ++ (s.outBlock r).take k) := by
    rcases ht with rfl | rfl
    · exact ⟨r.fail, rfl, rfl, rfl, .inl rfl⟩
    · unfold State.failReader
      by_cases hpc : r.pc = .write
      · rw [if_pos hpc]
        exact ⟨{ r.fail with out := r.out ++ (s.outBlock r).take k }, rfl, rfl, rfl,
          .inr ⟨hpc, rfl⟩⟩
      · rw [if_neg hpc]
        exact ⟨r.fail, rfl, rfl, rfl, .inl rfl⟩
  obtain ⟨r', rfl, htask, hpc', hout⟩ := hcases
  have hfailing : r'.task.life = .running → False := by
    rw [htask]
    exact fun hl => Life.noConfusion hl
  have hfull := full_of_sems_eq (show (s.setReader j r').sems = s.sems from rfl)
  refine h.reader ho hr rfl rfl rfl rfl ?_ ?_ (fun hl => (hfailing hl).elim)
    (fun hl => (hfailing hl).elim) (fun _ _ => hfull) fun v v' hv hv' hg hpr w hwm hpw => ?_
  · rcases hout with hsame | ⟨hpc, hpart⟩
    · rw [hsame]
      exact h.out r hrm
    · obtain ⟨f, hf, hpre⟩ := h.loaded r hrm hrun (.inr hpc)
      refine .inr ⟨f, hf, ?_⟩
      have hnum : s.outBlock r = s.shmBlock := by
        rw [State.outBlock, h.length r hrm hrun hpc]
        rfl
      rw [hpart, hnum]
      exact ((List.prefix_append_right_inj _).mpr (List.take_prefix _ _)).trans hpre
  · intro hb
    rw [hpc'] at hb
    rcases hout with hsame | ⟨hpc, -⟩
    · rw [hsame]
      exact h.unwritten r hrm hb
    · rw [hpc] at hb
      cases hb
  · have hne : r'.pc ≠ .write := by
      intro hc
      rw [Reader.paired, htask, hc] at hpr
      simp [Task.fail] at hpr
    have hpr' : r.paired = true := by
      rw [Reader.paired_running hrun, ← hpc']
      exact (Reader.phase_of_paired hpr).2
    have hsame : r'.out = r.out := hout.resolve_right fun hw => hne (hpc'.trans hw.1)
    exact h.held_kept hr hsame rfl hv hg hpr' hwm hpw (by rw [hfull v v' hv hv', hpc'])

/-- The reader forgives that the set is gone, and has nothing to do with it any more. -/
theorem Transfer.readerEndGone (hnone : s.sems = none)
    (ht : t = s.setReader j { r with pc := .unlinkShm }) : Transfer t := by
  have hrs : t.readers = s.readers.set j { r with pc := .unlinkShm } := by rw [ht]; rfl
  have hsome : ∀ {v : SEM → Nat} {P : Prop}, s.sems = some v → P := by
    intro v P hv
    rw [hnone] at hv
    cases hv
  refine h.readerKeeps hr ho (by rw [ht]; rfl) hrs (by rw [ht]; rfl) (by rw [ht]; rfl) rfl
    (fun hb => Bool.noConfusion hb) ?_ (fun _ hc => ReaderPc.noConfusion hc)
    (fun _ _ _ _ hv => hsome hv) (fun _ _ hv => hsome hv)
  intro _ hc
  rcases hc with hc | hc <;> cases hc

end Readers

/-! ## Setting a slot

`semctl` with SETVAL gives the semaphore a value and clears, in every process, the adjustment that
was kept for it. The two are taken one after the other here: first the adjustments
(`State.clearAll`), which is a state no process ever sees but of which the invariant holds as well,
and from there the step is one of the process that calls. -/

/-- Clearing adjustments moves no byte. -/
theorem Transfer.clearAll (h : Transfer s) (sem : SEM) : Transfer (s.clearAll sem) := by
  have hfiles : (s.clearAll sem).files = s.files := by
    rw [State.files, State.clearAll, List.map_map]
    rfl
  have hw : ∀ w ∈ (s.clearAll sem).writers, ∃ w₀ ∈ s.writers, w = w₀.clear sem := by
    intro w hmem
    obtain ⟨w₀, hw₀, rfl⟩ := List.mem_map.mp hmem
    exact ⟨w₀, hw₀, rfl⟩
  have hr : ∀ r ∈ (s.clearAll sem).readers, ∃ r₀ ∈ s.readers, r = r₀.clear sem := by
    intro r hmem
    obtain ⟨r₀, hr₀, rfl⟩ := List.mem_map.mp hmem
    exact ⟨r₀, hr₀, rfl⟩
  constructor
  · intro w hwm r hrm hcw hcr
    obtain ⟨w₀, hw₀, rfl⟩ := hw w hwm
    obtain ⟨r₀, hr₀, rfl⟩ := hr r hrm
    exact h.excl w₀ hw₀ r₀ hr₀ hcw hcr
  · intro r hrm
    obtain ⟨r₀, hr₀, rfl⟩ := hr r hrm
    rw [hfiles]
    exact h.out r₀ hr₀
  · intro w hwm hb
    obtain ⟨w₀, hw₀, rfl⟩ := hw w hwm
    exact h.unread w₀ hw₀ hb
  · intro r hrm hb
    obtain ⟨r₀, hr₀, rfl⟩ := hr r hrm
    exact h.unwritten r₀ hr₀ hb
  · intro r hrm hrun hpc
    obtain ⟨r₀, hr₀, rfl⟩ := hr r hrm
    rw [hfiles]
    exact h.loaded r₀ hr₀ hrun hpc
  · intro r hrm hrun hpc
    obtain ⟨r₀, hr₀, rfl⟩ := hr r hrm
    exact h.length r₀ hr₀ hrun hpc
  · intro v hv w hwm hlive
    obtain ⟨w₀, hw₀, rfl⟩ := hw w hwm
    have hc := h.copied v hv w₀ hw₀ hlive
    exact ⟨hc.length, hc.data⟩
  · intro v hv hg w hwm r hrm hpw hpr
    obtain ⟨w₀, hw₀, rfl⟩ := hw w hwm
    obtain ⟨r₀, hr₀, rfl⟩ := hr r hrm
    rw [State.ctl_clearAll] at hg
    exact h.held v hv hg w₀ hw₀ r₀ hr₀ hpw hpr

/-- And it stands between no two states that are one step apart. -/
theorem Onward.clearAll {sem : SEM} (ho : Onward s t) (hacc : (s.clearAll sem).Accounted) :
    Onward (s.clearAll sem) t where
  accounts := hacc
  accounts' := ho.accounts'
  excl' := ho.excl'
  sems v' hv' := by
    obtain ⟨v, hv, hg⟩ := ho.sems v' hv'
    refine ⟨v, hv, fun h => ?_⟩
    rw [State.ctl_clearAll]
    exact hg h

/-- The writer sets FULL to 0 in front of its first block. Nobody of its side is connected, so no
    block is lost by it. -/
theorem Transfer.writerSetval (h : Transfer s) (ho : Onward s t) (hw : s.writers[i]? = some w)
    (hrun : w.task.life = .running) (hpc : w.pc = .setvalFull)
    (hw' : w' = { w.clear .full with pc := .syncRead })
    (ht : t = (s.setvalAll v .full 0).setWriter i w') : Transfer t := by
  have hphase : w.phase = some .setval := by rw [Writer.phase_running hrun, hpc]; rfl
  have hphase' : w'.phase = some .post := by
    rw [hw']
    exact Task.phase_running hrun _
  have hpc' : w'.pc = .syncRead := by rw [hw']
  have hclear : (s.clearAll .full).Accounted := by
    intro v₀ hv₀
    exact (ho.accounts v₀ hv₀).clearFull hw hphase
  have hget : (s.clearAll .full).writers[i]? = some (w.clear .full) := by
    rw [State.clearAll, List.getElem?_map, hw, Option.map_some]
  have hpos : w'.pos = 0 := by
    have hpos₀ := h.unread w (List.mem_of_getElem? hw) (by rw [hpc]; rfl)
    rw [hw']
    exact hpos₀
  refine (h.clearAll .full).writer (ho.clearAll hclear) hget (by rw [ht]; rfl) (by rw [ht]; rfl)
    (by rw [hw']) (fun _ => hpos) (.inl ⟨by rw [ht]; rfl, by rw [ht]; rfl⟩) ?_ ?_ ?_
  · intro _ hidle'
    rw [hphase'] at hidle'
    cases hidle'
  · intro _ _ _
    rw [hw']
    exact ⟨fun hc => Bool.noConfusion hc, fun hc => WriterPc.noConfusion hc⟩
  · intro _ _ _ _ _ hpw
    rw [Writer.paired, hphase'] at hpw
    cases hpw

/-- The reader sets EMPTY to 1, which is no matter for the bytes. -/
theorem Transfer.readerSetval (h : Transfer s) (ho : Onward s t) (hr : s.readers[j]? = some r)
    (hrun : r.task.life = .running) (hpc : r.pc = .setvalEmpty)
    (hr' : r' = { r.clear .empty with pc := .syncWrite })
    (ht : t = (s.setvalAll v .empty 1).setReader j r') : Transfer t := by
  have hphase : r.phase = some .setval := by rw [Reader.phase_running hrun, hpc]; rfl
  have hphase' : r'.phase = some .post := by
    rw [hr']
    exact Task.phase_running hrun _
  have hpc' : r'.pc = .syncWrite := by rw [hr']
  have hclear : (s.clearAll .empty).Accounted := by
    intro v₀ hv₀
    exact ((ho.accounts v₀ hv₀).clearEmpty hr hphase).1
  have hget : (s.clearAll .empty).readers[j]? = some (r.clear .empty) := by
    rw [State.clearAll, List.getElem?_map, hr, Option.map_some]
  have hrs : t.readers = (s.clearAll .empty).readers.set j r' := by rw [ht]; rfl
  refine (h.clearAll .empty).readerKeeps hget (ho.clearAll hclear) (by rw [ht]; rfl) hrs
    (by rw [ht]; rfl) (by rw [ht]; rfl) (by rw [hr']) ?_ ?_ ?_ ?_ ?_
  · intro _
    change r.pc.phase.before = true
    rw [hpc]
    rfl
  · intro _ hc
    rw [hpc'] at hc
    rcases hc with hc | hc <;> cases hc
  · intro _ hc
    rw [hpc'] at hc
    cases hc
  · intro _ hidle'
    rw [hphase'] at hidle'
    cases hidle'
  · intro _ _ _ _ _ hpr
    rw [Reader.paired, hphase'] at hpr
    cases hpr

/-! ## The system

The lemmas put together, with the exclusion that the counters give. -/

/-- What the counters say of the critical phases, said of processes. -/
theorem State.Sound.excl (h : s.Sound) (hv : s.sems = some v) : s.Excl := by
  intro w hwm r hrm hcw hcr
  obtain ⟨hacc, hsafe⟩ := h v hv
  obtain ⟨i, hi⟩ := List.mem_iff_getElem?.mp hwm
  obtain ⟨j, hj⟩ := List.mem_iff_getElem?.mp hrm
  obtain ⟨p, hp, hpc⟩ := (Option.any_eq_true _ _).mp hcw
  obtain ⟨q, hq, hqc⟩ := (Option.any_eq_true _ _).mp hcr
  obtain ⟨-, -, hl, -⟩ :=
    count_of_active hacc.acct (State.writer_counts v hi hp) (Phase.active_of_critical hpc)
  obtain ⟨-, -, hr, -⟩ :=
    count_of_active hacc.acct (State.reader_counts v hj hq) (Phase.active_of_critical hqc)
  have hle := hsafe.exclusive
  rw [hl, hr, hpc, hqc] at hle
  exact absurd hle (by decide)

/-- A writer that has not become critical keeps the exclusion. -/
theorem State.Excl.writers (h : s.Excl) (hw : s.writers[i]? = some w)
    (hws : t.writers = s.writers.set i w') (hrs : t.readers = s.readers)
    (hc : w'.critical = true → w.critical = true) : t.Excl := by
  intro w₀ hwm r hrm hcw hcr
  rw [hws] at hwm
  rw [hrs] at hrm
  rcases (List.mem_or_eq_of_mem_set hwm).symm with rfl | hold
  · exact h w (List.mem_of_getElem? hw) r hrm (hc hcw) hcr
  · exact h w₀ hold r hrm hcw hcr

/-- A reader that has not become critical keeps it. -/
theorem State.Excl.readers (h : s.Excl) (hr : s.readers[j]? = some r)
    (hws : t.writers = s.writers) (hrs : t.readers = s.readers.set j r')
    (hc : r'.critical = true → r.critical = true) : t.Excl := by
  intro w hwm r₀ hrm hcw hcr
  rw [hws] at hwm
  rw [hrs] at hrm
  rcases (List.mem_or_eq_of_mem_set hrm).symm with rfl | hold
  · exact h w hwm r (List.mem_of_getElem? hr) hcw (hc hcr)
  · exact h w hwm r₀ hold hcw hcr

/-- A process that fails does not become critical by it. -/
theorem Task.critical_fail {k : Task} {p : Phase} (hrun : k.life = .running)
    (h : (k.fail.phase p).any Phase.critical = true) : (k.phase p).any Phase.critical = true := by
  have hfail : k.fail.phase p = some (if p = .start then .ended else p) := rfl
  rw [Task.phase_running hrun]
  by_cases hp : p = .start
  · rw [hfail, if_pos hp] at h
    cases h
  · rwa [hfail, if_neg hp] at h

/-- Without the set nobody gets on to take. Steps that need the set are out of the question. The
    others leave a process in its phase, or end it, or let it fail, and none of these makes it
    critical. -/
theorem State.Excl.gone {e : Event} (h : s.Excl) (hs : Steps s e t) (hnone : t.sems = none) :
    t.Excl := by
  cases hs with
  | writerMove hw hrun hm =>
    cases hm with
    | semop => cases hnone
    | setval => cases hnone
    | quiet hl =>
      obtain ⟨hphase, -, hlife, -⟩ := hl.kept
      refine h.writers hw rfl rfl fun hc => ?_
      rw [Writer.critical, Writer.phase_running (hlife.trans hrun), hphase] at hc
      rw [Writer.critical, Writer.phase_running hrun]
      exact hc
    | fail => exact h.writers hw rfl rfl (Task.critical_fail hrun)
    | remove =>
      exact h.writers hw rfl rfl fun hc => Bool.noConfusion (Writer.phase_of_critical hc).2
  | writerErr hw hrun => exact h.writers hw rfl rfl (Task.critical_fail hrun)
  | writerExit hw => exact h.writers hw rfl rfl fun hc => Bool.noConfusion hc
  | readerMove hr hrun hm =>
    cases hm with
    | semop => cases hnone
    | setval => cases hnone
    | quiet hl =>
      obtain ⟨hphase, -, hlife⟩ := hl.kept
      refine h.readers hr rfl rfl fun hc => ?_
      rw [Reader.critical, Reader.phase_running (hlife.trans hrun), hphase] at hc
      rw [Reader.critical, Reader.phase_running hrun]
      exact hc
    | fail => exact h.readers hr rfl rfl (Task.critical_fail hrun)
    | endGone =>
      exact h.readers hr rfl rfl fun hc => Bool.noConfusion (Reader.phase_of_critical hc).2
  | readerErr hr hrun =>
    unfold State.failReader
    split
    · exact h.readers hr rfl rfl (Task.critical_fail hrun)
    · exact h.readers hr rfl rfl (Task.critical_fail hrun)
  | readerExit hr => exact h.readers hr rfl rfl fun hc => Bool.noConfusion hc

/-- Every clean step meets what `Transfer.writer` and `Transfer.reader` ask of it. With a set behind
    the step the exclusion comes from its counters; without one it has to be carried over from the
    state before. -/
theorem Steps.onward {e : Event} (h : Transfer s) (hsound : s.Sound) (hsound' : t.Sound)
    (hs : Steps s e t) : Onward s t where
  accounts v hv := (hsound v hv).1
  accounts' v hv := (hsound' v hv).1
  excl' := by
    cases hv : t.sems with
    | none => exact h.excl.gone hs hv
    | some v => exact hsound'.excl hv
  sems v' hv' := by
    cases hv : s.sems with
    | none =>
      rw [hs.gone hv] at hv'
      cases hv'
    | some v =>
      refine ⟨v, rfl, fun hg => ?_⟩
      obtain ⟨-, hcount⟩ := (hsound v hv).1.step hv hs hv'
      cases hcount with
      | still hctl => rwa [hctl] at hg
      | moved x hstep => exact fun z => Nat.lt_of_lt_of_le (hg z) (eligible_le hstep z)

/-- **One clean step of the transfer.** By cases on the step and on the move. That the state behind
    it has its counters in order is known beforehand (`State.Sound.step`): the invariant of the
    counters does not depend on the bytes, and so the two are not proved together. -/
theorem Transfer.step {e : Event} (h : Transfer s) (hsound : s.Sound) (hc : Clean s e)
    (hs : Steps s e t) : Transfer t := by
  have ho := hs.onward h hsound (hsound.step hc hs)
  cases hs with
  | writerMove hw hrun hm =>
    cases hm with
    | semop hop _ hv hd => exact h.writerSemop ho hw hsound hrun hop hv hd rfl rfl
    | setval hpc => exact h.writerSetval ho hw hrun hpc rfl rfl
    | quiet hl => exact h.writerLocal ho hw hsound hrun hl rfl
    | fail => exact h.writerFail ho hw hrun rfl
    | remove => exact h.writerRemove ho hw rfl
  | writerErr hw hrun => exact h.writerFail ho hw hrun rfl
  | writerExit hw hlive => exact h.writerExit ho hw (Task.live_of_ne hlive) rfl
  | readerMove hr hrun hm =>
    cases hm with
    | semop hop _ hv hd => exact h.readerSemop hr ho hsound hrun hop hv hd rfl rfl
    | setval hpc => exact h.readerSetval ho hr hrun hpc rfl rfl
    | quiet hl => exact h.readerLocal hr ho hsound hrun hl rfl
    | fail => exact h.readerFail (k := 0) hr ho hrun (.inl rfl)
    | endGone _ hnone => exact h.readerEndGone hr ho hnone rfl
  | readerErr hr hrun => exact h.readerFail hr ho hrun (.inr rfl)
  | readerExit hr hlive => exact h.readerExit hr ho (Task.live_of_ne hlive) rfl

end CompTech.Sharmem
