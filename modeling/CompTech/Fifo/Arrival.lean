import CompTech.Fifo.Link
import CompTech.Lib.Tables

/-!
# The file arrives

`Sound` puts the links together: every link is all right, at every moment of a run in which no pid
comes twice and no `get_pid_fifo` finds the general FIFO empty. An event moves one process and with
it one link at most. `Sound.setDrain` and `Sound.exitReader` are for the readers, `Sound.writer`
for the writers; the lemmas of the single events only say which move of a link theirs is.

The hypotheses of `Sound.writer` and `Sound.setDrain` are stated for both situations of a link
(`Idle`, `Paired`), because a move does not know in which of them it happens; the one that cannot be
is refuted by the place of the process. The only move from `Idle` to `Paired` is the `open` of the
secret FIFO for writing.

How the invariant is kept. Every event is a call of one process, and `Sound` has a clause for the
general FIFO, one for the processes of the readers and one for every link. The lemmas in front ask
of a call only what it does to its own link, in either situation; that the other links do not notice
follows from `Apart` and from the pids that the writers hold, and is proved once, in those lemmas.

What is excluded (`InScope`) are the two ways in which a link could get a second writer or a second
reader: a pid that comes again after its first owner is gone, and a `get_pid_fifo` that finds
nothing and goes on with what happens to be in its variable. Failures and kills are not excluded.
-/

namespace CompTech.Fifo.Feeding

open Lib

/-! ## Every link -/

/-- The invariant: the account of the general FIFO, every process where its link expects it, and
    every link all right. -/
structure Sound (s : State) : Prop where
  accounted : Accounted s.general
  apart : Apart s.general
  /-- the readers' processes are those of their pids -/
  present : ∀ r ∈ s.general.readers, (s.drain r.secrPid).pc ≠ .absent ∧
    (r.pc ≠ .left → (s.drain r.secrPid).alive)
  lengths : s.feeds.length = s.general.writers.length
  splits : ∀ f ∈ s.feeds, f.SplitsFile
  /-- up to `get_pid_fifo` there is no pid and no secret FIFO -/
  early : ∀ (j : Nat) (w : Writer) (f : Feed), s.general.writers[j]? = some w →
    s.feeds[j]? = some f → w.pc ≠ .feeding → w.pc ≠ .left → w.secrPid = none ∧ f.hasSecr = false
  link : ∀ pid, LinkOk (s.line pid) (s.drain pid) s.general.writers s.feeds pid

section Sound

variable {cap : Nat} {s t : State} {k j : Nat} {r : Reader} {w w' : Writer} {f f' : Feed}
  {d : Drain} {l : Line} {pid : Pid} {g : Fifo.State}

/-- The general FIFO and the reader's process move, the links do not. -/
theorem Sound.general (h : Sound s) (hacc : Accounted g) (hapart : Apart g)
    (hr : ∀ r ∈ g.readers, ∃ r' ∈ s.general.readers, r'.secrPid = r.secrPid ∧
      (r.pc ≠ .left → r'.pc ≠ .left)) (hw : g.writers = s.general.writers) :
    Sound { s with general := g } := by
  refine ⟨hacc, hapart, fun r hmem => ?_, hw ▸ h.lengths, h.splits, hw ▸ h.early,
    fun pid => hw ▸ h.link pid⟩
  obtain ⟨r', hr', hpid, hleft⟩ := hr r hmem
  obtain ⟨hpresent, halive⟩ := h.present r' hr'
  rw [hpid] at hpresent halive
  exact ⟨hpresent, fun hpc => halive (hleft hpc)⟩

/-- A reader works on its link. -/
theorem Sound.setDrain (h : Sound s) (hd : d.alive)
    (hidle : Idle (s.line pid) (s.drain pid) → Idle l d)
    (hpaired : ∀ f, Paired (s.line pid) (s.drain pid) f → Paired l d f) :
    Sound (s.setDrain pid d l) := by
  have hpresent : d.pc ≠ .absent := by
    intro hpc
    rw [Drain.alive, hpc] at hd
    cases hd
  refine ⟨h.accounted, h.apart, fun r hr => ?_, h.lengths, h.splits, h.early, fun q => ?_⟩
  · show (Function.update s.drain pid d r.secrPid).pc ≠ _ ∧
      (_ → (Function.update s.drain pid d r.secrPid).alive)
    by_cases hq : r.secrPid = pid
    · rw [hq, Function.update_self]
      exact ⟨hpresent, fun _ => hd⟩
    · rw [Function.update_of_ne hq]
      exact h.present r hr
  · show LinkOk (Function.update s.line pid l q) (Function.update s.drain pid d q) _ _ _
    by_cases hq : q = pid
    · subst hq
      rw [Function.update_self, Function.update_self]
      exact (h.link q).drain hidle hpaired
    · rw [Function.update_of_ne hq, Function.update_of_ne hq]
      exact h.link q

/-- A reader exits. `g` is what its exit leaves of the general FIFO. -/
theorem Sound.exitReader (h : Sound s) (hacc : Accounted g) (hapart : Apart g)
    (hr : s.general.readers[k]? = some r)
    (hreaders : g.readers = s.general.readers.set k { r with pc := .left })
    (hw : g.writers = s.general.writers) (hpresent : d.pc ≠ .absent)
    (hidle : Idle (s.line r.secrPid) (s.drain r.secrPid) → Idle l d)
    (hpaired : ∀ f, Paired (s.line r.secrPid) (s.drain r.secrPid) f → Paired l d f) :
    Sound { s.setDrain r.secrPid d l with general := g } := by
  have hk := (List.getElem?_eq_some_iff.mp hr).1
  have hself : (⟨r.secrPid, .left⟩ : Reader) ∈ g.readers := by
    rw [hreaders]
    exact List.mem_of_getElem? (List.getElem?_set_self hk)
  refine ⟨hacc, hapart, fun r' hr' => ?_, hw ▸ h.lengths, h.splits, hw ▸ h.early, fun q => ?_⟩
  · show (Function.update s.drain r.secrPid d r'.secrPid).pc ≠ _ ∧
      (_ → (Function.update s.drain r.secrPid d r'.secrPid).alive)
    by_cases hq : r'.secrPid = r.secrPid
    · rw [hq, Function.update_self]
      refine ⟨hpresent, fun hpc => absurd ?_ hpc⟩
      rw [hapart.eq hr' hself hq]
    · rw [Function.update_of_ne hq]
      rw [hreaders] at hr'
      rcases List.mem_or_eq_of_mem_set hr' with hold | rfl
      · exact h.present r' hold
      · exact absurd rfl hq
  · show LinkOk (Function.update s.line r.secrPid l q) (Function.update s.drain r.secrPid d q)
      g.writers _ _
    rw [hw]
    by_cases hq : q = r.secrPid
    · subst hq
      rw [Function.update_self, Function.update_self]
      exact (h.link _).drain hidle hpaired
    · rw [Function.update_of_ne hq, Function.update_of_ne hq]
      exact h.link q

/-- A writer works on its link. The premise about `early` carries the writers that have no pid yet.
    Of the two premises about the link the first leaves open on which side of the `open` the writer
    is afterwards. -/
theorem Sound.writer (h : Sound s) (hw : s.general.writers[j]? = some w)
    (hf : s.feeds[j]? = some f) (hacc : Accounted t.general)
    (hreaders : t.general.readers = s.general.readers) (hposts : t.general.posts = s.general.posts)
    (hdrain : t.drain = s.drain) (hwriters : t.general.writers = s.general.writers.set j w')
    (hfeeds : t.feeds = s.feeds.set j f') (hsame : w'.secrPid = w.secrPid) (hsplits : f'.SplitsFile)
    (hearly : w'.pc ≠ .feeding → w'.pc ≠ .left → w'.secrPid = none ∧ f'.hasSecr = false)
    (hother : ∀ q, w.secrPid ≠ some q → t.line q = s.line q)
    (hidle : ∀ pid, w.secrPid = some pid → Idle (s.line pid) (s.drain pid) → f.hasSecr = false →
      Idle (t.line pid) (s.drain pid) ∧ f'.hasSecr = false ∨
        Paired (t.line pid) (s.drain pid) f')
    (hpaired : ∀ pid, w.secrPid = some pid → Paired (s.line pid) (s.drain pid) f →
      Paired (t.line pid) (s.drain pid) f') : Sound t := by
  have hnodup := h.accounted.rendezvous.apart h.apart.posts
  refine ⟨hacc, h.apart.of_eq hreaders hposts, ?_, ?_, ?_, ?_, fun q => ?_⟩
  · rw [hreaders, hdrain]
    exact h.present
  · rw [hfeeds, hwriters, List.length_set, List.length_set]
    exact h.lengths
  · rw [hfeeds]
    intro e he
    rcases List.mem_or_eq_of_mem_set he with hold | rfl
    · exact h.splits e hold
    · exact hsplits
  · rw [hfeeds, hwriters]
    intro i v e hv he hpc hpc'
    by_cases hij : j = i
    · subst hij
      rw [List.getElem?_set_self (List.getElem?_eq_some_iff.mp hw).1] at hv
      rw [List.getElem?_set_self (List.getElem?_eq_some_iff.mp hf).1] at he
      cases hv
      cases he
      exact hearly hpc hpc'
    · rw [List.getElem?_set_ne hij] at hv he
      exact h.early i v e hv he hpc hpc'
  · rw [hwriters, hfeeds, hdrain]
    by_cases hq : w.secrPid = some q
    · refine (h.link q).feed hw hf (hsame.trans hq) (fun i v hv hvpid => ?_) (hidle q hq)
        (hpaired q hq) hq
      exact held_unique hnodup hv hw hvpid hq
    · rw [hother q hq]
      exact (h.link q).frame hw hq (hsame ▸ hq)

/-! ### FIFO_read

A step of a reader changes its own link only: no two readers have one pid.

A reader has its place in two lists, as a process of the general FIFO and as the drain of its link.
Until it has posted, the calls are those of `Rendezvous`, and the link is idle; from then on they
are `select`, `read`, `write` and the exit, and the general FIFO only moves at the end, when the
process closes what it has open. -/

theorem mem_setReader {r' : Reader} {pc : ReadPc} (hr : s.general.readers[k]? = some r)
    (hpc : r.pc ≠ .left) (h : r' ∈ s.general.readers.set k { r with pc := pc }) :
    ∃ r'' ∈ s.general.readers, r''.secrPid = r'.secrPid ∧ (r'.pc ≠ .left → r''.pc ≠ .left) := by
  rcases List.mem_or_eq_of_mem_set h with hold | rfl
  · exact ⟨r', hold, rfl, id⟩
  · exact ⟨r, List.mem_of_getElem? hr, rfl, fun _ => hpc⟩

theorem Sound.readerExit {ok : Bool} (h : Sound s) (hr : s.general.readers[k]? = some r)
    (hidle : Idle (s.line r.secrPid) (s.drain r.secrPid) →
      Idle (s.line r.secrPid).closeRead { d with pc := .exited ok })
    (hpaired : ∀ f, Paired (s.line r.secrPid) (s.drain r.secrPid) f →
      Paired (s.line r.secrPid).closeRead { d with pc := .exited ok } f)
    (ht : s.readerExit k r.secrPid d ok = some t) : Sound t := by
  obtain ⟨g, hg, rfl⟩ := Option.map_eq_some_iff.mp ht
  obtain ⟨r', hr', hpc, hgeq⟩ := readerLeaves_eq hg
  obtain rfl : r = r' := Option.some_inj.mp (hr.symm.trans hr')
  have hreaders : g.readers = s.general.readers.set k { r with pc := .left } := by
    rw [hgeq, settle_readers]
    rfl
  have hapart : Apart g := (h.apart.setReader hr .left fun _ => .inr rfl).of_eq
    (by rw [hgeq, settle_readers]) (by rw [hgeq, settle_posts])
  have hwriters : g.writers = s.general.writers := by
    rw [hgeq, settle_writers]
    rfl
  have hfinds : FindsPid s.general (.readerLeaves k) := trivial
  exact h.exitReader (h.accounted.step hfinds hg) hapart hr hreaders hwriters (by simp) hidle
    hpaired

/-- `transfer_pid_fifo`: the pid goes into the general FIFO, or `SIGPIPE` ends the process and its
    link with it. -/
theorem Sound.posts (h : Sound s) (hr : s.general.readers[k]? = some r)
    (ht : Feeding.readerStep s k r .posts = some t) : Sound t := by
  obtain ⟨g, hg, rfl⟩ := Option.map_eq_some_iff.mp ht
  have hfinds : FindsPid s.general (.readerPosts k) := trivial
  have hacc := h.accounted.step hfinds hg
  obtain ⟨r', hr', hpc, rfl⟩ := readerPosts_eq hg
  obtain rfl : r = r' := Option.some_inj.mp (hr.symm.trans hr')
  have hapart := h.apart.transferPidFifo hr hpc
  have halive := (h.present r (List.mem_of_getElem? hr)).2 (by simp [hpc])
  by_cases hends : s.general.rdEnds = 0
  · -- nobody has the general FIFO open for reading
    rw [if_pos hends]
    have hsettled : transferPidFifo s.general k r =
        (s.general.setReader k { r with pc := .left }).settle := if_pos hends
    rw [hsettled] at hacc hapart ⊢
    refine h.exitReader hacc hapart hr (settle_readers _) (settle_writers _) (by simp)
      (fun hi => hi.readerExit halive) fun f hp => ?_
    exact hp.readerExit halive hp.taken (fun hok => by cases hok)
  · rw [if_neg hends]
    have hposted : transferPidFifo s.general k r = _ := if_neg hends
    refine h.general hacc hapart (fun r'' hr'' => ?_) ?_
    · rw [hposted] at hr''
      exact mem_setReader hr (by simp [hpc]) hr''
    · rw [hposted]
      rfl

/-- One call of a reader. The cases are the calls; each is a move of its link, or of the general
    FIFO. -/
theorem Sound.readerStep {act : ReaderAct} (h : Sound s) (hr : s.general.readers[k]? = some r)
    (ht : Feeding.readerStep s k r act = some t) : Sound t := by
  cases act with
  | opened =>
    obtain ⟨g, hg, rfl⟩ := Option.map_eq_some_iff.mp ht
    have hfinds : FindsPid s.general (.readerOpened k) := trivial
    have hacc := h.accounted.step hfinds hg
    obtain ⟨r', seen, hr', hpc, rfl⟩ := readerOpened_eq hg
    have hapart := h.apart.setReader hr' .posting fun hc => by simp [hpc] at hc
    exact h.general hacc hapart (fun r'' hr'' => mem_setReader hr' (by simp [hpc]) hr'') rfl
  | posts => exact h.posts hr ht
  | select =>
    obtain ⟨⟨-, hpc, hcan⟩, ht⟩ := Option.ite_none_right_eq_some.mp ht
    cases ht
    refine h.setDrain rfl (fun hi => ?_) fun f hp => ?_
    · exfalso
      simp [canRead, hi.buf, hi.seen, hi.wrOpens] at hcan
    · refine hp.drain (by rw [Drain.alive, hpc]) rfl rfl rfl ?_ (fun hc => by cases hc)
      rw [hpc]
      rfl
  | read count =>
    simp only [Feeding.readerStep] at ht
    split at ht
    · rename_i hpc
      have halive : (s.drain r.secrPid).alive = true := by rw [Drain.alive, hpc]
      have hidle : ∀ l d, Idle (s.line r.secrPid) (s.drain r.secrPid) → Idle l d := fun l d hi => by
        rw [hi.not_draining (by simp [hpc])] at halive
        cases halive
      split at ht
      · rename_i hbuf
        obtain ⟨⟨hends, -⟩, ht⟩ := Option.ite_none_right_eq_some.mp ht
        cases ht
        refine h.setDrain rfl (hidle _ _) fun f hp => ?_
        refine hp.drain halive rfl rfl rfl ?_ fun _ => ⟨hends, hbuf⟩
        rw [hpc]
        rfl
      · obtain ⟨hcount, ht⟩ := Option.ite_none_right_eq_some.mp ht
        cases ht
        refine h.setDrain rfl (hidle _ _) fun f hp => ?_
        refine hp.drain halive rfl rfl rfl ?_ (fun hc => by cases hc)
        show (s.drain r.secrPid).out ++ (s.line r.secrPid).buf.take count ++
          (s.line r.secrPid).buf.drop count = _
        rw [hpc, List.append_assoc, List.take_append_drop]
        simp [DrainPc.held]
    · cases ht
  | print count =>
    simp only [Feeding.readerStep] at ht
    split at ht
    · rename_i buff hpc
      have halive : (s.drain r.secrPid).alive = true := by rw [Drain.alive, hpc]
      have hidle : ∀ l d, Idle (s.line r.secrPid) (s.drain r.secrPid) → Idle l d := fun l d hi => by
        rw [hi.not_draining (by simp [hpc])] at halive
        cases halive
      split at ht
      · rename_i hall
        cases ht
        refine h.setDrain rfl (hidle _ _) fun f hp => ?_
        refine hp.drain halive rfl rfl rfl ?_ (fun hc => by cases hc)
        rw [hpc]
        simp [DrainPc.held, hall]
      · obtain ⟨hpart, ht⟩ := Option.ite_none_right_eq_some.mp ht
        refine h.readerExit hr (hidle _ _) (fun f hp => ?_) ht
        refine hp.readerExit halive ?_ (fun hok => by cases hok)
        have hflow := hp.flow halive
        rw [hpc] at hflow
        refine ⟨buff.drop count ++ (s.line r.secrPid).buf, ?_⟩
        rw [← hflow, List.append_assoc, ← List.append_assoc (buff.take count),
          List.take_append_drop, List.append_assoc]
        rfl
    · cases ht
  | close =>
    obtain ⟨hpc, ht⟩ := Option.ite_none_right_eq_some.mp ht
    have halive : (s.drain r.secrPid).alive = true := by rw [Drain.alive, hpc]
    refine h.readerExit hr (fun hi => ?_) (fun f hp => ?_) ht
    · rw [hi.not_draining (by simp [hpc])] at halive
      cases halive
    · exact hp.readerExit halive hp.taken fun _ => ⟨hpc, rfl⟩
  | dies =>
    obtain ⟨halive, ht⟩ := Option.ite_none_right_eq_some.mp ht
    exact h.readerExit hr (fun hi => hi.readerExit halive)
      (fun f hp => hp.readerExit halive hp.taken (fun hok => by cases hok)) ht

/-! ### FIFO_write

A step of a writer changes the link whose pid it holds, and no other writer holds it.

A writer has no link before `get_pid_fifo` has given it a pid. At that moment the pid leaves the
general FIFO, so no second writer can take it, and the link it belongs to is still idle: this is
where the hypothesis that the FIFO is not empty is used, and the only place. -/

/-- Between its `open` and its exit a writer has the secret FIFO open. -/
theorem hasSecr_eq_true (hmeeting : f.pc ≠ .meeting) (hexit : ∀ ok, f.pc ≠ .exited ok) :
    f.hasSecr = true := by
  unfold Feed.hasSecr
  cases hpc : f.pc with
  | meeting => exact absurd hpc hmeeting
  | exited ok => exact absurd hpc (hexit ok)
  | openingFile | reading | writing | closing => rfl

/-- A writer exits: its end of the secret FIFO is closed, and what it has sent stays there for the
    reader. The same lemma serves `exit(EXIT_FAILURE)`, a kill and the return from `main`; what is
    different is whether the file has been sent (`hok`). -/
theorem Sound.writerExit {ok : Bool} (h : Sound s) (hw : s.general.writers[j]? = some w)
    (hf : s.feeds[j]? = some f) (hexit : ∀ ok, f.pc ≠ .exited ok)
    (hok : ok = true → f.pc = .closing) (ht : s.writerExit j w f ok = some t) : Sound t := by
  obtain ⟨g, hg, rfl⟩ := Option.map_eq_some_iff.mp ht
  have hfinds : FindsPid s.general (.writerLeaves j) := trivial
  have hacc := h.accounted.step hfinds hg
  obtain ⟨w', hw', -, hgeq⟩ := writerLeaves_eq hg
  obtain rfl : w = w' := Option.some_inj.mp (hw.symm.trans hw')
  have hreaders : g.readers = s.general.readers := by
    rw [hgeq, settle_readers]
    rfl
  have hposts : g.posts = s.general.posts := by
    rw [hgeq, settle_posts]
    rfl
  have hwriters : g.writers = s.general.writers.set j { w with pc := .left } := by
    rw [hgeq, settle_writers]
    rfl
  have hsplits := (h.splits f (List.mem_of_getElem? hf)).exit hok
  cases hpid : w.secrPid with
  | none =>
    refine h.writer hw hf hacc hreaders hposts rfl hwriters rfl rfl hsplits
      (fun _ hc => absurd rfl hc) (fun _ _ => rfl) (fun q hq => ?_) (fun q hq => ?_)
    · rw [hpid] at hq
      cases hq
    · rw [hpid] at hq
      cases hq
  | some pid =>
    dsimp only
    cases hsecr : f.hasSecr with
    | false =>
      rw [if_neg Bool.false_ne_true]
      refine h.writer hw hf hacc hreaders hposts rfl hwriters rfl rfl hsplits
        (fun _ hc => absurd rfl hc) (fun _ _ => rfl) (fun q hq hi _ => .inl ⟨hi, rfl⟩)
        (fun q hq hp => ?_)
      rw [hasSecr_eq_true hp.opened hexit] at hsecr
      cases hsecr
    | true =>
      rw [if_pos rfl]
      refine h.writer hw hf hacc hreaders hposts rfl hwriters rfl rfl hsplits
        (fun _ hc => absurd rfl hc) (fun q hq => ?_) (fun q hq hi hno => ?_) (fun q hq hp => ?_)
      · refine Function.update_of_ne ?_ _ _
        rintro rfl
        exact hq hpid
      · rw [hsecr] at hno
        cases hno
      · obtain rfl : pid = q := Option.some_inj.mp (hpid.symm.trans hq)
        show Paired (Function.update s.line pid _ pid) _ _
        rw [Function.update_self]
        exact hp.writerExit hsecr

/-- `get_pid_fifo` has found a pid: nobody else holds it, so nobody feeds its link. That nobody else
    holds it is `held_unique`: the pids that are held were all posted once. -/
theorem Sound.gets {junk : Pid} (h : Sound s) (hw : s.general.writers[j]? = some w)
    (hf : s.feeds[j]? = some f) (hfinds : s.general.dflt ≠ [])
    (hg : Fifo.step s.general (.writerGets j junk) = some g) :
    Sound { s with general := g } := by
  have hscope : FindsPid s.general (.writerGets j junk) := hfinds
  have hacc := h.accounted.step hscope hg
  obtain ⟨w', pid, hw', hpc, hreaders, hposts, hwriters⟩ := writerGets_eq hfinds hg
  obtain rfl : w = w' := Option.some_inj.mp (hw.symm.trans hw')
  have hj := (List.getElem?_eq_some_iff.mp hw).1
  have hapart := h.apart.of_eq hreaders hposts
  have hnodup := hacc.rendezvous.apart hapart.posts
  obtain ⟨hnone, hsecr⟩ := h.early j w f hw hf (by simp [hpc]) (by simp [hpc])
  have hself : g.writers[j]? = some { w with secrPid := some pid, pc := .feeding } := by
    rw [hwriters]
    exact List.getElem?_set_self hj
  have halone : ∀ (i : Nat) (v : Writer), s.general.writers[i]? = some v →
      v.secrPid ≠ some pid := by
    intro i v hv hvpid
    by_cases hij : j = i
    · subst hij
      obtain rfl : w = v := Option.some_inj.mp (hw.symm.trans hv)
      rw [hnone] at hvpid
      cases hvpid
    · have hv' : g.writers[i]? = some v := by
        rw [hwriters, List.getElem?_set_ne hij]
        exact hv
      exact hij (held_unique hnodup hself hv' rfl hvpid)
  refine ⟨hacc, hapart, ?_, ?_, h.splits, fun i v e hv he hvpc hvpc' => ?_, fun q => ?_⟩
  · rw [hreaders]
    exact h.present
  · rw [hwriters, List.length_set]
    exact h.lengths
  · rw [hwriters] at hv
    by_cases hij : j = i
    · subst hij
      rw [List.getElem?_set_self hj] at hv
      cases hv
      exact absurd rfl hvpc
    · rw [List.getElem?_set_ne hij] at hv
      exact h.early i v e hv he hvpc hvpc'
  · show LinkOk _ _ g.writers _ _
    rw [hwriters]
    by_cases hq : q = pid
    · subst hq
      rcases h.link q with ⟨hi, -⟩ | ⟨i, v, e, hv, -, hvpid, -⟩
      · refine .inl ⟨hi, fun i v e hv he hvpid => ?_⟩
        by_cases hij : j = i
        · subst hij
          obtain rfl : f = e := Option.some_inj.mp (hf.symm.trans he)
          exact hsecr
        · rw [List.getElem?_set_ne hij] at hv
          exact absurd hvpid (halone i v hv)
      · exact absurd hvpid (halone i v hv)
    · rw [← set_self hf]
      refine (h.link q).frame hw (by simp [hnone]) fun hc => ?_
      exact hq (Option.some_inj.mp hc).symm

theorem Sound.writerOpened (h : Sound s) (hw : s.general.writers[j]? = some w)
    (hf : s.feeds[j]? = some f) (hg : Fifo.step s.general (.writerOpened j) = some g) :
    Sound { s with general := g } := by
  have hfinds : FindsPid s.general (.writerOpened j) := trivial
  have hacc := h.accounted.step hfinds hg
  obtain ⟨w', seen, hw', hpc, rfl⟩ := writerOpened_eq hg
  obtain rfl : w = w' := Option.some_inj.mp (hw.symm.trans hw')
  have hearly := h.early j w f hw hf (by simp [hpc]) (by simp [hpc])
  have hsplits := h.splits f (List.mem_of_getElem? hf)
  refine h.writer hw hf hacc rfl rfl rfl rfl (set_self hf).symm rfl hsplits (fun _ _ => hearly)
    (fun _ _ => rfl) (fun q hq => ?_) (fun q hq => ?_)
  · rw [hearly.1] at hq
    cases hq
  · rw [hearly.1] at hq
    cases hq

/-- A writer with a pid works on its file and its link, and the general FIFO does not change. -/
theorem Sound.feeding {lines : Pid → Line} (h : Sound s) (hw : s.general.writers[j]? = some w)
    (hf : s.feeds[j]? = some f) (hpid : w.secrPid = some pid) (hsplits : f'.SplitsFile)
    (hother : ∀ q, q ≠ pid → lines q = s.line q)
    (hidle : Idle (s.line pid) (s.drain pid) → f.hasSecr = false →
      Idle (lines pid) (s.drain pid) ∧ f'.hasSecr = false ∨ Paired (lines pid) (s.drain pid) f')
    (hpaired : Paired (s.line pid) (s.drain pid) f → Paired (lines pid) (s.drain pid) f') :
    Sound { s.setFeed j f' with line := lines } := by
  refine h.writer hw hf h.accounted rfl rfl rfl (set_self hw).symm rfl rfl hsplits
    (fun hpc hpc' => ?_) (fun q hq => ?_) (fun q hq => ?_) (fun q hq => ?_)
  · have hnone := (h.early j w f hw hf hpc hpc').1
    rw [hpid] at hnone
    cases hnone
  · refine hother q ?_
    rintro rfl
    exact hq hpid
  · obtain rfl : pid = q := Option.some_inj.mp (hpid.symm.trans hq)
    exact hidle
  · obtain rfl : pid = q := Option.some_inj.mp (hpid.symm.trans hq)
    exact hpaired

/-- One call of a writer, in a run that never lets it take a pid from an empty FIFO. -/
theorem Sound.writerStep {act : WriterAct} (h : Sound s) (hw : s.general.writers[j]? = some w)
    (hf : s.feeds[j]? = some f) (hscope : ∀ junk, act = .gets junk → s.general.dflt ≠ [])
    (ht : Feeding.writerStep cap s j w f act = some t) : Sound t := by
  have hsplits := h.splits f (List.mem_of_getElem? hf)
  unfold Feeding.writerStep at ht
  split at ht
  · obtain ⟨g, hg, rfl⟩ := Option.map_eq_some_iff.mp ht
    exact h.writerOpened hw hf hg
  · obtain ⟨g, hg, rfl⟩ := Option.map_eq_some_iff.mp ht
    exact h.gets hw hf (hscope _ rfl) hg
  · rename_i pid hpid
    obtain ⟨⟨-, hpc⟩, ht⟩ := Option.ite_none_right_eq_some.mp ht
    split at ht
    · exact h.writerExit hw hf (by simp [hpc]) (fun hok => by cases hok) ht
    · rename_i hends
      cases ht
      refine h.feeding hw hf hpid (hsplits.openSecr hpc) (fun q hq => Function.update_of_ne hq _ _)
        (fun hi _ => .inr ?_) (fun hp => absurd hpc hp.opened)
      rw [Function.update_self]
      exact hi.openWrite hends (hsplits.fresh hpc)
  · rename_i pid hpid
    obtain ⟨hpc, ht⟩ := Option.ite_none_right_eq_some.mp ht
    split at ht
    · cases ht
      refine h.feeding hw hf hpid (hsplits.openFile hpc) (fun _ _ => rfl) (fun hi hno => ?_)
        (fun hp => ?_)
      · rw [Feed.hasSecr, hpc] at hno
        cases hno
      · exact hp.feed (by rw [Feed.hasSecr, hpc]) rfl rfl rfl (List.append_nil _).symm
          (List.append_nil _).symm
    · exact h.writerExit hw hf (by simp [hpc]) (fun hok => by cases hok) ht
  · rename_i pid hpid
    split at ht
    · rename_i hpc
      have hsecr : f.hasSecr = true := by rw [Feed.hasSecr, hpc]
      split at ht
      · rename_i hrest
        obtain ⟨-, ht⟩ := Option.ite_none_right_eq_some.mp ht
        cases ht
        refine h.feeding hw hf hpid (hsplits.readEnd hpc hrest) (fun _ _ => rfl) (fun hi hno => ?_)
          (fun hp => ?_)
        · rw [hsecr] at hno
          cases hno
        · exact hp.feed hsecr rfl rfl rfl (List.append_nil _).symm (List.append_nil _).symm
      · obtain ⟨-, ht⟩ := Option.ite_none_right_eq_some.mp ht
        cases ht
        refine h.feeding hw hf hpid (hsplits.read hpc) (fun _ _ => rfl) (fun hi hno => ?_)
          (fun hp => ?_)
        · rw [hsecr] at hno
          cases hno
        · exact hp.feed hsecr rfl rfl rfl (List.append_nil _).symm (List.append_nil _).symm
    · cases ht
  · rename_i count pid hpid
    split at ht
    · rename_i pending hpc
      have hsecr : f.hasSecr = true := by rw [Feed.hasSecr, hpc]
      split at ht
      · exact h.writerExit hw hf (by simp [hpc]) (fun hok => by cases hok) ht
      · obtain ⟨-, ht⟩ := Option.ite_none_right_eq_some.mp ht
        cases ht
        refine h.feeding hw hf hpid (hsplits.put hpc) (fun q hq => Function.update_of_ne hq _ _)
          (fun hi hno => ?_) (fun hp => ?_)
        · rw [hsecr] at hno
          cases hno
        · rw [Function.update_self]
          refine hp.feed hsecr ?_ rfl rfl rfl rfl
          show Feed.hasSecr ⟨if _ then _ else _, _, _, _⟩ = true
          split <;> rfl
    · cases ht
  · obtain ⟨hpc, ht⟩ := Option.ite_none_right_eq_some.mp ht
    exact h.writerExit hw hf (by simp [hpc]) (fun _ => hpc) ht
  · obtain ⟨hexit, ht⟩ := Option.ite_none_right_eq_some.mp ht
    exact h.writerExit hw hf hexit (fun hok => by cases hok) ht
  · cases ht
  · cases ht
  · cases ht
  · cases ht
  · cases ht

/-! ### Those who come

A reader that comes begins a link without a writer, and a writer that comes has no pid yet.

A pid that has not been there before has an idle link, since a line that nobody has opened is empty.
A writer that comes gets a feed of its own at the end of the list, and the two lists stay of one
length. -/

/-- A writer that comes has no pid, so it is on no link. -/
theorem LinkOk.append {ws : List Writer} {fs : List Feed} (h : LinkOk l d ws fs pid)
    (hlen : fs.length = ws.length) (hw : w.secrPid = none) :
    LinkOk l d (ws ++ [w]) (fs ++ [f]) pid := by
  rcases h with ⟨hi, hnone⟩ | ⟨j, v, e, hv, he, hvpid, hp⟩
  · refine .inl ⟨hi, fun j v e hv he hvpid => ?_⟩
    rcases Nat.lt_or_ge j ws.length with hlt | hge
    · rw [List.getElem?_append_left hlt] at hv
      rw [List.getElem?_append_left (hlen ▸ hlt)] at he
      exact hnone j v e hv he hvpid
    · rw [List.getElem?_append_right hge] at hv
      obtain rfl := List.mem_singleton.mp (List.mem_of_getElem? hv)
      rw [hw] at hvpid
      cases hvpid
  · have hlt := (List.getElem?_eq_some_iff.mp hv).1
    refine .inr ⟨j, v, e, ?_, ?_, hvpid, hp⟩
    · rw [List.getElem?_append_left hlt]
      exact hv
    · rw [List.getElem?_append_left (hlen ▸ hlt)]
      exact he

theorem Sound.writerComes {file : List Byte} (h : Sound s)
    (ht : Feeding.step cap s (.writerComes file) = some t) : Sound t := by
  obtain ⟨g, hg⟩ : ∃ g, Fifo.step s.general .writerComes = some g := ⟨_, rfl⟩
  have hfinds : FindsPid s.general .writerComes := trivial
  have hacc := h.accounted.step hfinds hg
  cases hg
  cases ht
  refine ⟨hacc, h.apart.of_eq rfl rfl, h.present, ?_, fun f hf => ?_,
    fun j w f hw hf hpc hpc' => ?_, fun q => (h.link q).append h.lengths rfl⟩
  · show (s.feeds ++ [_]).length = (s.general.writers ++ [_]).length
    rw [List.length_append, List.length_append, h.lengths]
    rfl
  · rcases List.mem_append.mp hf with hold | hnew
    · exact h.splits f hold
    · obtain rfl := List.mem_singleton.mp hnew
      exact ⟨fun _ => rfl, List.nil_prefix, fun _ => rfl, by rintro (hc | hc) <;> cases hc⟩
  · dsimp only at hw hf
    rcases Nat.lt_or_ge j s.general.writers.length with hlt | hge
    · rw [List.getElem?_append_left hlt] at hw
      rw [List.getElem?_append_left (h.lengths ▸ hlt)] at hf
      exact h.early j w f hw hf hpc hpc'
    · rw [List.getElem?_append_right hge] at hw
      rw [List.getElem?_append_right (h.lengths ▸ hge)] at hf
      obtain rfl := List.mem_singleton.mp (List.mem_of_getElem? hw)
      obtain rfl := List.mem_singleton.mp (List.mem_of_getElem? hf)
      exact ⟨rfl, rfl⟩

/-- The pid has not been there before. -/
theorem Sound.readerComes (h : Sound s) (hfresh : (s.drain pid).pc = .absent)
    (ht : Feeding.step cap s (.readerComes pid) = some t) : Sound t := by
  obtain ⟨g, hg⟩ : ∃ g, Fifo.step s.general (.readerComes pid) = some g := ⟨_, rfl⟩
  have hfinds : FindsPid s.general (.readerComes pid) := trivial
  have hacc := h.accounted.step hfinds hg
  have hne : ∀ r ∈ s.general.readers, r.secrPid ≠ pid := by
    rintro r hr rfl
    exact (h.present r hr).1 hfresh
  have hapart := h.apart.readerComes hne hg
  cases hg
  cases ht
  refine ⟨hacc, hapart, fun r hr => ?_, h.lengths, h.splits, h.early, fun q => ?_⟩
  · show (Function.update s.drain pid _ r.secrPid).pc ≠ _ ∧
      (_ → (Function.update s.drain pid _ r.secrPid).alive)
    by_cases hq : r.secrPid = pid
    · rw [hq, Function.update_self]
      exact ⟨by simp, fun _ => rfl⟩
    · rw [Function.update_of_ne hq]
      rcases List.mem_append.mp hr with hold | hnew
      · exact h.present r hold
      · obtain rfl := List.mem_singleton.mp hnew
        exact absurd rfl hq
  · show LinkOk (Function.update s.line pid _ q) (Function.update s.drain pid _ q) _ _ _
    by_cases hq : q = pid
    · subst hq
      rw [Function.update_self, Function.update_self]
      refine (h.link q).drain (fun hi => ?_) fun f hp => absurd hfresh hp.present
      have hrd := hi.rdEnds
      rw [Drain.alive, hfresh, if_neg Bool.false_ne_true] at hrd
      refine ⟨hi.buf, hi.wrEnds, hi.wrOpens, ?_, hi.wrOpens, rfl, .inr (.inl rfl)⟩
      show (s.line q).rdEnds + 1 = 1
      rw [hrd]
    · rw [Function.update_of_ne hq, Function.update_of_ne hq]
      exact h.link q

end Sound

/-! ## Whole runs

The invariant along a run, and what it says of the readers that have ended. -/

/-- No pid comes twice, and no `get_pid_fifo` finds the general FIFO empty. -/
def InScope (s : State) : Event → Prop
  | .readerComes pid => (s.drain pid).pc = .absent
  | .writer _ (.gets _) => s.general.dflt ≠ []
  | .reader _ _ | .writerComes _ => True
  | .writer _ .opened | .writer _ .openSecr | .writer _ (.openFile _) | .writer _ (.read _) => True
  | .writer _ (.put _) | .writer _ .close | .writer _ .dies => True

instance (s : State) : (e : Event) → Decidable (InScope s e)
  | .readerComes pid => inferInstanceAs (Decidable ((s.drain pid).pc = .absent))
  | .writer _ (.gets _) => inferInstanceAs (Decidable (s.general.dflt ≠ []))
  | .reader _ _ | .writerComes _ => inferInstanceAs (Decidable True)
  | .writer _ .opened | .writer _ .openSecr | .writer _ (.openFile _) | .writer _ (.read _) =>
    inferInstanceAs (Decidable True)
  | .writer _ (.put _) | .writer _ .close | .writer _ .dies => inferInstanceAs (Decidable True)

section Runs

variable {cap : Nat} {s t : State} {e : Event} {pid : Pid}

/-- Every event in scope keeps the invariant. By cases on the event, each with its lemma. -/
theorem Sound.step (h : Sound s) (hscope : InScope s e) (ht : Feeding.step cap s e = some t) :
    Sound t := by
  cases e with
  | readerComes pid => exact h.readerComes hscope ht
  | reader k act =>
    obtain ⟨r, hr, ht⟩ := Option.bind_eq_some_iff.mp ht
    exact h.readerStep hr ht
  | writerComes file => exact h.writerComes ht
  | writer j act =>
    obtain ⟨w, hw, ht⟩ := Option.bind_eq_some_iff.mp ht
    obtain ⟨f, hf, ht⟩ := Option.bind_eq_some_iff.mp ht
    refine h.writerStep hw hf ?_ ht
    rintro junk rfl
    exact hscope

/-- Nobody has come, and every link is idle. -/
theorem Sound.start : Sound start := by
  have hnone : ∀ {α : Type} (j : Nat) (a : α), ([] : List α)[j]? ≠ some a := by simp
  refine ⟨fun pid => Nat.le_refl _, ⟨List.nodup_nil, List.nodup_nil, fun _ hp => ?_⟩,
    fun _ hr => ?_, rfl, fun _ hf => ?_, fun j w f hw => absurd hw (hnone j w), fun pid => .inl ⟨?_,
      fun j w f hw => absurd hw (hnone j w)⟩⟩
  · exact absurd hp List.not_mem_nil
  · exact absurd hr List.not_mem_nil
  · exact absurd hf List.not_mem_nil
  · exact ⟨rfl, rfl, rfl, rfl, rfl, rfl, .inl rfl⟩

/-- What the reader of `pid` has printed, and whose file it is. -/
structure DeliveredBy (s : State) (pid : Pid) (j : Nat) (w : Writer) (f : Feed) : Prop where
  writer : s.general.writers[j]? = some w ∧ s.feeds[j]? = some f ∧ w.secrPid = some pid
  /-- nobody else feeds it -/
  only : ∀ (i : Nat) (v : Writer), s.general.writers[i]? = some v → v.secrPid = some pid → i = j
  printed : (s.drain pid).out <+: f.file
  /-- nothing is lost while the reader is there -/
  kept : (s.drain pid).alive →
    (s.drain pid).out ++ (s.drain pid).pc.held ++ (s.line pid).buf <+: f.file ∧
      (f.pc = .exited true →
        (s.drain pid).out ++ (s.drain pid).pc.held ++ (s.line pid).buf = f.file)
  /-- a reader that succeeds has outlived its writer, and has the file if that succeeded -/
  success : (s.drain pid).pc = .exited true →
    (∃ ok, f.pc = .exited ok) ∧ (f.pc = .exited true → (s.drain pid).out = f.file)

/-- **The file arrives.** In every run in which no pid comes twice and no `get_pid_fifo` finds the
    general FIFO empty, whoever fails or is killed: a reader prints nothing, or the beginning of the
    file of the one writer that has its pid.

    The statement is about one pid, at any moment of the run, so it also says what a reader that is
    still at work has printed. Which of the two alternatives holds is read off the link of the pid:
    an idle link has printed nothing, and a paired one names its writer. The second half of
    `DeliveredBy` is what the pair adds for a reader that is there (nothing is lost) and for one
    that has succeeded (the writer is gone, and if it has succeeded too, the output is the file). -/
theorem feeding_run {es : List Event} (hr : Run (step cap) InScope start es s) (pid : Pid) :
    (s.drain pid).out = [] ∧ (s.drain pid).pc ≠ .exited true ∨
      ∃ j w f, DeliveredBy s pid j w f := by
  have h : Sound s := hr.invariant Sound.start fun _ _ _ hs hscope ht => hs.step hscope ht
  rcases h.link pid with ⟨hi, -⟩ | ⟨j, w, f, hw, hf, hpid, hp⟩
  · refine .inl ⟨hi.out, fun hpc => ?_⟩
    rcases hi.pc with hc | hc | hc <;> rw [hpc] at hc <;> cases hc
  · have hsplits := h.splits f (List.mem_of_getElem? hf)
    refine .inr ⟨j, w, f, ⟨hw, hf, hpid⟩, fun i v hv hvpid => ?_, hp.taken.trans hsplits.taken,
      fun hd => ?_, fun hpc => ?_⟩
    · exact held_unique (h.accounted.rendezvous.apart h.apart.posts) hv hw hvpid hpid
    · rw [hp.flow hd]
      exact ⟨hsplits.taken, fun hok => hsplits.ended (.inr hok)⟩
    · obtain ⟨hout, hsecr⟩ := hp.ended (.inr hpc)
      refine ⟨?_, fun hok => hout.trans (hsplits.ended (.inr hok))⟩
      by_contra hno
      rw [hasSecr_eq_true hp.opened fun ok hok => hno ⟨ok, hok⟩] at hsecr
      cases hsecr

/-- One of each, and a file of two bytes: the reader has them when both have exited. -/
theorem feeding_run_meeting : ∃ s, ((s.drain 11).out = [] ∧ (s.drain 11).pc ≠ .exited true ∨
    ∃ j w f, DeliveredBy s 11 j w f) ∧ (s.drain 11).out = [1, 2] := by
  have hrun : (exec (step 16) InScope [.writerComes [1, 2], .readerComes 11, .reader 0 .opened,
      .writer 0 .opened, .reader 0 .posts, .writer 0 (.gets 0), .writer 0 .openSecr,
      .writer 0 (.openFile true), .writer 0 (.read 2), .writer 0 (.put 2), .writer 0 (.read 0),
      .writer 0 .close, .reader 0 .select, .reader 0 (.read 2), .reader 0 (.print 2),
      .reader 0 (.read 0), .reader 0 .close] start).any
        (fun s => decide ((s.drain 11).out = [1, 2])) = true := by decide +kernel
  obtain ⟨s, hr, hout⟩ := Run.exists_of_exec hrun
  exact ⟨s, feeding_run hr 11, of_decide_eq_true hout⟩

end Runs

end CompTech.Fifo.Feeding
