import CompTech.Sharmem.Clean

/-!
# What the page holds

The bytes on their way. While a writer and a reader are paired, what the reader has put out and
what is still pending make up what the writer has read; `pending` says where a block is — in
`tmp_buf`, in the page, or nowhere. A reader past its check has a block in front of it that
continues a prefix of some file, whatever happens to the writer or to the set after that.

A step moves one process, so the proof that `Transfer` is kept has one lemma for each side
(`Transfer.writer`, `Transfer.reader`) that takes care of all the others, and asks for what has
become of the one that moved. What they ask for is as weak as the other side allows: the page may be
written to by a process that is critical, since then nobody of the other side looks at it; FULL may
change by a process that is active, since then it is the one that is paired.

Of the fields of `Transfer` the first six are about processes each for itself and hold whether there
is a set or not. `copied` and `held` are about a set that is there; `held` also needs somebody to
hand over to on both sides, as the pairing does.
-/

namespace CompTech.Sharmem

open Lib

/-- The block in the page. -/
def State.shmBlock (s : State) : List Byte := s.shmData.take s.shmLen

/-- The files that are being transferred, one for each writer. -/
def State.files (s : State) : List (List Byte) := s.writers.map (·.file)

/-- The block is in `tmp_buf`. -/
def WriterPc.copying : WriterPc → Bool
  | .memcpy | .storeNumSymb => true
  | _ => false

/-- The block is taken, and not yet written out. -/
def ReaderPc.taking : ReaderPc → Bool
  | .checkNumProc | .load | .write => true
  | _ => false

/-- The writer has taken the empty page and not given it full. -/
def Writer.critical (w : Writer) : Bool := w.phase.any Phase.critical

/-- The reader has taken the full page and not given it empty. -/
def Reader.critical (r : Reader) : Bool := r.phase.any Phase.critical

/-- The writer has posted its token and has not left. -/
def Writer.paired (w : Writer) : Bool := w.phase.any Phase.paired

/-- A reader that failed in its `write` has put out an unknown part of the block. -/
def Reader.paired (r : Reader) : Bool :=
  r.phase.any Phase.paired && !(r.task.life = .failing && r.pc = .write)

/-- What is read from the file and not yet written out. -/
def pending (s : State) (v : SEM → Nat) (w : Writer) (r : Reader) : List Byte :=
  if w.pc.copying then w.tmpBuf
  else if w.pc = .vFull ∨ 0 < v .full ∨ r.pc.taking = true then s.shmBlock
  else []

/-- What the reader has put out and what is pending is what the writer has read: no byte is lost
    between the two, and none is there twice. -/
def Held (s : State) (v : SEM → Nat) (w : Writer) (r : Reader) : Prop :=
  r.out ++ pending s v w r = w.file.take w.pos

/-- The writer knows how long its block is, and once it is copied it is in the page. -/
structure Copied (s : State) (w : Writer) : Prop where
  length : w.pc.copying = true → w.numSymb = w.tmpBuf.length
  data : w.pc = .storeNumSymb → s.shmData.take w.tmpBuf.length = w.tmpBuf

/-- Nobody is between taking and giving together with somebody of the other side. -/
def State.Excl (s : State) : Prop :=
  ∀ w ∈ s.writers, ∀ r ∈ s.readers, w.critical = true → r.critical = true → False

/-- The invariant of the bytes. -/
structure Transfer (s : State) : Prop where
  excl : s.Excl
  /-- what a reader has put out is the beginning of some file, … -/
  out : ∀ r ∈ s.readers, r.out = [] ∨ ∃ f ∈ s.files, r.out <+: f
  /-- … with a writer that has not connected nothing is read yet, … -/
  unread : ∀ w ∈ s.writers, w.pc.phase.before = true → w.pos = 0
  /-- … nor put out by such a reader, -/
  unwritten : ∀ r ∈ s.readers, r.pc.phase.before = true → r.out = []
  /-- and a reader that has passed its check has a block before it that goes on with that beginning.
    -/
  loaded : ∀ r ∈ s.readers, r.task.life = .running → r.pc = .load ∨ r.pc = .write →
    ∃ f ∈ s.files, r.out ++ s.shmBlock <+: f
  /-- the length it has taken is still the one in the page -/
  length : ∀ r ∈ s.readers, r.task.life = .running → r.pc = .write → r.numSymb = s.shmLen
  copied : ∀ v, s.sems = some v → ∀ w ∈ s.writers, w.task.live = true → Copied s w
  held : ∀ v, s.sems = some v → Guarded (s.ctl v) → ∀ w ∈ s.writers, ∀ r ∈ s.readers,
    w.paired = true → r.paired = true → Held s v w r

variable {s t : State} {v v' : SEM → Nat} {i j : Nat} {w w' : Writer} {r r' : Reader}

/-! ## Counting one -/

/-- The process in an active phase is the only one of its side. -/
theorem count_of_active {c : Ctl} (h : Acct c) {x : Side} {p : Phase} (hn : 0 < c.n x p)
    (hp : p.active = true) : c.n x .posted = (if p = .posted then 1 else 0) ∧
      c.connected x = p.connected.toNat ∧ c.critical x = p.critical.toNat ∧
      c.n x .post = (if p = .post then 1 else 0) := by
  have hle := h.le_one x
  unfold Ctl.active at hle
  unfold Ctl.connected Ctl.critical
  cases p <;>
    simp only [Phase.active, Bool.false_eq_true, Phase.connected, Phase.critical, reduceCtorEq,
      if_true, if_false, Bool.toNat_true, Bool.toNat_false] at hp ⊢ <;> omega

/-- Whoever has posted is active. -/
theorem Phase.active_of_paired {p : Phase} (h : p.paired = true) : p.active = true := by
  cases p <;> first | rfl | cases h

theorem Phase.active_of_critical {p : Phase} (h : p.critical = true) : p.active = true := by
  cases p <;> first | rfl | cases h

/-- A paired process is in front of the other's token or connected, not both. -/
theorem paired_sum {p : Phase} (h : p.paired = true) :
    (if p = .posted then 1 else 0) + p.connected.toNat = 1 := by
  cases p <;> first | rfl | cases h

/-- A list that counts one active process has it in one place. -/
theorem count_two {l : List (Option Phase)} {i k : Nat} (hle : l.countP (·.any Phase.active) ≤ 1)
    {o o' : Option Phase} (hi : l[i]? = some o) (hk : l[k]? = some o')
    (ho : o.any Phase.active = true) (ho' : o'.any Phase.active = true) : i = k := by
  induction l generalizing i k with
  | nil => cases hi
  | cons a l ih =>
    rw [List.countP_cons] at hle
    have hrest : ∀ {m : Nat} {o : Option Phase}, l[m]? = some o → o.any Phase.active = true →
        0 < l.countP (·.any Phase.active) :=
      fun hm hact => List.countP_pos_iff.mpr ⟨_, List.mem_of_getElem? hm, hact⟩
    cases i with
    | zero =>
      cases k with
      | zero => rfl
      | succ k =>
        obtain rfl : a = o := Option.some_inj.mp hi
        have hpos := hrest hk ho'
        rw [if_pos ho] at hle
        omega
    | succ i =>
      cases k with
      | zero =>
        obtain rfl : a = o' := Option.some_inj.mp hk
        have hpos := hrest hi ho
        rw [if_pos ho'] at hle
        omega
      | succ k =>
        have hle' : l.countP (·.any Phase.active) ≤ 1 := by omega
        exact congrArg _ (ih hle' hi hk)

/-- Two active writers are one. -/
theorem Accounts.writer_unique (h : Accounts s v) {k : Nat} (hw : s.writers[i]? = some w)
    (hw' : s.writers[k]? = some w') (ha : w.phase.any Phase.active = true)
    (ha' : w'.phase.any Phase.active = true) : i = k := by
  have hle : (s.ctl v).active .left ≤ 1 := h.acct.le_one .left
  rw [State.ctl, (view_active _ _ _).1] at hle
  exact count_two hle (State.writerPhases_get hw) (State.writerPhases_get hw') ha ha'

/-- Two active readers are one. -/
theorem Accounts.reader_unique (h : Accounts s v) {k : Nat} (hr : s.readers[j]? = some r)
    (hr' : s.readers[k]? = some r') (ha : r.phase.any Phase.active = true)
    (ha' : r'.phase.any Phase.active = true) : j = k := by
  have hle : (s.ctl v).active .right ≤ 1 := h.acct.le_one .right
  rw [State.ctl, (view_active _ _ _).2] at hle
  exact count_two hle (State.readerPhases_get hr) (State.readerPhases_get hr') ha ha'

/-- **One block.** Of the two slots and the two critical phases of a pair one is occupied. -/
theorem slots_of_pair (h : Accounts s v) (hp : Paired initSlot (s.ctl v)) {p q : Phase}
    (hw : 0 < (s.ctl v).n .left p) (hr : 0 < (s.ctl v).n .right q) (hpp : p.paired = true)
    (hqp : q.paired = true) :
    v .full + v .empty + p.critical.toNat + q.critical.toNat = 1 := by
  obtain ⟨hpw, hcw, hkw, -⟩ := count_of_active h.acct hw (Phase.active_of_paired hpp)
  obtain ⟨hpr, hcr, hkr, -⟩ := count_of_active h.acct hr (Phase.active_of_paired hqp)
  have hone := (hp.slots .left).one
  simp only [Side.other] at hone
  rw [hpw, hcw, hkw, hpr, hcr, hkr] at hone
  exact hone (paired_sum hpp) (paired_sum hqp)

/-! ## One process has moved -/

/-- What is pending depends on the buffer, the page and on who has it. -/
theorem pending_congr (hcopy : w'.pc.copying = w.pc.copying) (hbuf : w'.tmpBuf = w.tmpBuf)
    (hblock : t.shmBlock = s.shmBlock)
    (hor : (w'.pc = .vFull ∨ 0 < v' .full ∨ r'.pc.taking = true) ↔
      (w.pc = .vFull ∨ 0 < v .full ∨ r.pc.taking = true)) :
    pending t v' w' r' = pending s v w r := by
  unfold pending
  rw [hcopy, hbuf, hblock]
  simp only [hor]

/-- The set is there after the step only if it was there before; nobody gets in. -/
structure Onward (s t : State) : Prop where
  accounts : s.Accounted
  accounts' : t.Accounted
  excl' : t.Excl
  sems : ∀ v', t.sems = some v' → ∃ v, s.sems = some v ∧ (Guarded (t.ctl v') → Guarded (s.ctl v))

/-- A step of writer `i` leaves the files as they are. -/
theorem files_set (hw : s.writers[i]? = some w) (hws : t.writers = s.writers.set i w')
    (hfile : w'.file = w.file) : t.files = s.files := by
  have hget : s.files[i]? = some w.file := by
    rw [State.files, List.getElem?_map, hw, Option.map_some]
  rw [State.files, hws, List.map_set, hfile]
  exact set_self hget

/-- A kind of phases that are all active. -/
theorem Phase.any_active {o : Option Phase} {f : Phase → Bool} (h : o.any f = true)
    (hf : ∀ p, f p = true → p.active = true) : o.any Phase.active = true := by
  cases o with
  | none => exact h
  | some p => exact hf p h

/-- A paired writer is active. -/
theorem Writer.active_of_paired (h : w.paired = true) : w.phase.any Phase.active = true :=
  Phase.any_active h fun _ => Phase.active_of_paired

theorem Writer.active_of_critical (h : w.critical = true) : w.phase.any Phase.active = true :=
  Phase.any_active h fun _ => Phase.active_of_critical

theorem Reader.active_of_paired (h : r.paired = true) : r.phase.any Phase.active = true := by
  rw [Reader.paired, Bool.and_eq_true] at h
  exact Phase.any_active h.1 fun _ => Phase.active_of_paired

/-- The copy is made between taking and giving. -/
theorem WriterPc.critical_of_copying {pc : WriterPc} (h : pc.copying = true) :
    pc.phase.critical = true := by
  cases pc <;> first | rfl | cases h

/-- A writer that is there and stands in a critical place is critical, on its error path too. -/
theorem Writer.critical_of_live (hlive : w.task.live = true) (hc : w.pc.phase.critical = true) :
    w.critical = true := by
  obtain ⟨q, hq, hor⟩ := Task.phase_some (p := w.pc.phase) hlive
  have hwq : w.phase = some q := hq
  rw [Writer.critical, hwq]
  rcases hor with rfl | ⟨hstart, -⟩
  · exact hc
  · rw [hstart] at hc
    cases hc

theorem Reader.critical_of_live (hlive : r.task.live = true) (hc : r.pc.phase.critical = true) :
    r.critical = true := by
  obtain ⟨q, hq, hor⟩ := Task.phase_some (p := r.pc.phase) hlive
  have hrq : r.phase = some q := hq
  rw [Reader.critical, hrq]
  rcases hor with rfl | ⟨hstart, -⟩
  · exact hc
  · rw [hstart] at hc
    cases hc

/-- A writer that is copying is critical. -/
theorem Writer.critical_of_copying (hlive : w.task.live = true) (h : w.pc.copying = true) :
    w.critical = true :=
  Writer.critical_of_live hlive (WriterPc.critical_of_copying h)

theorem Reader.critical_of_running (hrun : r.task.life = .running)
    (h : r.pc.phase.critical = true) : r.critical = true := by
  rw [Reader.critical, Reader.phase, Task.phase_running hrun]
  exact h

/-- Writer `i` has moved: what is to be shown of it alone. -/
theorem Transfer.writer (h : Transfer s) (ho : Onward s t) (hw : s.writers[i]? = some w)
    (hws : t.writers = s.writers.set i w') (hrs : t.readers = s.readers)
    (hfile : w'.file = w.file) (hunread : w'.pc.phase.before = true → w'.pos = 0)
    (hpage : (t.shmLen = s.shmLen ∧ t.shmData = s.shmData) ∨ w'.critical = true)
    (hfull : w.phase.any Phase.active = false → w'.phase.any Phase.active = false →
      ∀ v v', s.sems = some v → t.sems = some v' → v' .full = v .full)
    (hcopied : ∀ v, s.sems = some v → w'.task.live = true → Copied t w')
    (hheld : ∀ v v', s.sems = some v → t.sems = some v' → Guarded (s.ctl v) → w'.paired = true →
      ∀ r ∈ s.readers, r.paired = true → Held t v' w' r) :
    Transfer t := by
  have hfiles := files_set hw hws hfile
  have hmem' : w' ∈ t.writers := by
    rw [hws]
    exact List.mem_set (List.getElem?_eq_some_iff.mp hw).1 w'
  have hreader : ∀ r ∈ t.readers, r.task.life = .running → r.pc = .load ∨ r.pc = .write →
      t.shmLen = s.shmLen ∧ t.shmData = s.shmData := by
    intro r hr hrun hpc
    refine hpage.resolve_right fun hcrit => ho.excl' w' hmem' r hr hcrit ?_
    refine Reader.critical_of_running hrun ?_
    rcases hpc with hpc | hpc <;> rw [hpc] <;> rfl
  have hothers : ∀ v', t.sems = some v' → ∀ {k : Nat} {w₂ : Writer}, k ≠ i →
      s.writers[k]? = some w₂ → w₂.phase.any Phase.active = true →
      (t.shmLen = s.shmLen ∧ t.shmData = s.shmData) ∧
        ∀ v, s.sems = some v → v' .full = v .full := by
    intro v' hv' k w₂ hk hw₂ hact
    obtain ⟨v, hv, -⟩ := ho.sems v' hv'
    have hget : t.writers[i]? = some w' := by
      rw [hws, List.getElem?_set_self (List.getElem?_eq_some_iff.mp hw).1]
    have hget₂ : t.writers[k]? = some w₂ := by
      rw [hws, List.getElem?_set_ne (Ne.symm hk)]
      exact hw₂
    have hidle' : w'.phase.any Phase.active = false := by
      rw [Bool.eq_false_iff]
      exact fun hact' => hk ((ho.accounts' v' hv').writer_unique hget₂ hget hact hact')
    have hidle : w.phase.any Phase.active = false := by
      rw [Bool.eq_false_iff]
      exact fun hact' => hk ((ho.accounts v hv).writer_unique hw₂ hw hact hact')
    refine ⟨hpage.resolve_right fun hcrit => ?_, fun v hv => hfull hidle hidle' v v' hv hv'⟩
    rw [Writer.active_of_critical hcrit] at hidle'
    cases hidle'
  constructor
  · exact ho.excl'
  · rw [hrs, hfiles]
    exact h.out
  · intro w₂ hmem hbefore
    rw [hws] at hmem
    rcases (List.mem_or_eq_of_mem_set hmem).symm with rfl | hold
    · exact hunread hbefore
    · exact h.unread w₂ hold hbefore
  · rw [hrs]
    exact h.unwritten
  · intro r hr hrun hpc
    obtain ⟨hlen, hdata⟩ := hreader r hr hrun hpc
    rw [hfiles, State.shmBlock, hlen, hdata]
    exact h.loaded r (hrs ▸ hr) hrun hpc
  · intro r hr hrun hpc
    rw [(hreader r hr hrun (.inr hpc)).1]
    exact h.length r (hrs ▸ hr) hrun hpc
  · intro v' hv' w₂ hmem hlive
    obtain ⟨k, hk⟩ := List.mem_iff_getElem?.mp hmem
    rw [hws] at hk
    obtain ⟨v, hv, -⟩ := ho.sems v' hv'
    rcases getElem?_set_eq_some hk with ⟨-, rfl⟩ | ⟨hne, hold⟩
    · exact hcopied v hv hlive
    · have hc := h.copied v hv w₂ (List.mem_of_getElem? hold) hlive
      refine ⟨hc.length, fun hpc => ?_⟩
      have hcrit := Writer.critical_of_copying hlive (show w₂.pc.copying = true by rw [hpc]; rfl)
      rw [(hothers v' hv' hne hold (Writer.active_of_critical hcrit)).1.2]
      exact hc.data hpc
  · intro v' hv' hg w₂ hmem r hr hpw hpr
    obtain ⟨v, hv, hguard⟩ := ho.sems v' hv'
    rw [hrs] at hr
    obtain ⟨k, hk⟩ := List.mem_iff_getElem?.mp hmem
    rw [hws] at hk
    rcases getElem?_set_eq_some hk with ⟨-, rfl⟩ | ⟨hne, hold⟩
    · exact hheld v v' hv hv' (hguard hg) hpw r hr hpr
    · have hold' := h.held v hv (hguard hg) w₂ (List.mem_of_getElem? hold) r hr hpw hpr
      obtain ⟨⟨hlen, hdata⟩, hsame⟩ :=
        hothers v' hv' hne hold (Writer.active_of_paired hpw)
      have hblock : t.shmBlock = s.shmBlock := by rw [State.shmBlock, hlen, hdata]; rfl
      unfold Held at hold' ⊢
      rw [← hold', pending_congr rfl rfl hblock (by rw [hsame v hv])]

theorem Transfer.reader (h : Transfer s) (ho : Onward s t) (hr : s.readers[j]? = some r)
    (hws : t.writers = s.writers) (hrs : t.readers = s.readers.set j r')
    (hlen : t.shmLen = s.shmLen) (hdata : t.shmData = s.shmData)
    (hout : r'.out = [] ∨ ∃ f ∈ s.files, r'.out <+: f)
    (hunwritten : r'.pc.phase.before = true → r'.out = [])
    (hloaded : r'.task.life = .running → r'.pc = .load ∨ r'.pc = .write →
      ∃ f ∈ s.files, r'.out ++ s.shmBlock <+: f)
    (hlength : r'.task.life = .running → r'.pc = .write → r'.numSymb = s.shmLen)
    (hfull : r.phase.any Phase.active = false → r'.phase.any Phase.active = false →
      ∀ v v', s.sems = some v → t.sems = some v' → v' .full = v .full)
    (hheld : ∀ v v', s.sems = some v → t.sems = some v' → Guarded (s.ctl v) → r'.paired = true →
      ∀ w ∈ s.writers, w.paired = true → Held t v' w r') :
    Transfer t := by
  have hfiles : t.files = s.files := by rw [State.files, hws]; rfl
  have hblock : t.shmBlock = s.shmBlock := by rw [State.shmBlock, hlen, hdata]; rfl
  constructor
  · exact ho.excl'
  · intro r₂ hmem
    rw [hfiles]
    rw [hrs] at hmem
    rcases (List.mem_or_eq_of_mem_set hmem).symm with rfl | hold
    · exact hout
    · exact h.out r₂ hold
  · rw [hws]
    exact h.unread
  · intro r₂ hmem hbefore
    rw [hrs] at hmem
    rcases (List.mem_or_eq_of_mem_set hmem).symm with rfl | hold
    · exact hunwritten hbefore
    · exact h.unwritten r₂ hold hbefore
  · intro r₂ hmem hrun hpc
    rw [hfiles, hblock]
    rw [hrs] at hmem
    rcases (List.mem_or_eq_of_mem_set hmem).symm with rfl | hold
    · exact hloaded hrun hpc
    · exact h.loaded r₂ hold hrun hpc
  · intro r₂ hmem hrun hpc
    rw [hlen]
    rw [hrs] at hmem
    rcases (List.mem_or_eq_of_mem_set hmem).symm with rfl | hold
    · exact hlength hrun hpc
    · exact h.length r₂ hold hrun hpc
  · intro v' hv' w hmem hlive
    obtain ⟨v, hv, -⟩ := ho.sems v' hv'
    have hc := h.copied v hv w (hws ▸ hmem) hlive
    refine ⟨hc.length, fun hpc => ?_⟩
    rw [hdata]
    exact hc.data hpc
  · intro v' hv' hg w hw r₂ hmem hpw hpr
    obtain ⟨v, hv, hguard⟩ := ho.sems v' hv'
    rw [hws] at hw
    obtain ⟨k, hk⟩ := List.mem_iff_getElem?.mp hmem
    rw [hrs] at hk
    rcases getElem?_set_eq_some hk with ⟨-, rfl⟩ | ⟨hne, hold⟩
    · exact hheld v v' hv hv' (hguard hg) hpr w hw hpw
    · have hold' := h.held v hv (hguard hg) w hw r₂ (List.mem_of_getElem? hold) hpw hpr
      have hact := Reader.active_of_paired hpr
      have hget : t.readers[j]? = some r' := by
        rw [hrs, List.getElem?_set_self (List.getElem?_eq_some_iff.mp hr).1]
      have hget₂ : t.readers[k]? = some r₂ := by
        rw [hrs, List.getElem?_set_ne (Ne.symm hne)]
        exact hold
      have hidle' : r'.phase.any Phase.active = false := by
        rw [Bool.eq_false_iff]
        exact fun hact' => hne ((ho.accounts' v' hv').reader_unique hget₂ hget hact hact')
      have hidle : r.phase.any Phase.active = false := by
        rw [Bool.eq_false_iff]
        exact fun hact' => hne ((ho.accounts v hv).reader_unique hold hr hact hact')
      unfold Held at hold' ⊢
      rw [← hold', pending_congr rfl rfl hblock (by rw [hfull hidle hidle' v v' hv hv'])]

end CompTech.Sharmem
