import CompTech.Fifo.Feeding

/-!
# One secret FIFO

A link is the FIFO of one name, the reader that drains it and the writer that feeds it. `LinkOk` is
what holds of a link: no writer yet (`Idle`), or one (`Paired`), and then what is printed, what the
reader holds and what is in the FIFO are together what the writer has sent. Each move of either
side has its lemma; `LinkOk.frame` is for the moves of the other writers.

The general FIFO keeps the links apart. `Apart` says that no pid comes twice, and with
`Rendezvous` no two writers hold one (`held_unique`).

The lemmas of the first section read the steps of `Rendezvous` backwards, one for each call, so that
nothing below unfolds `Fifo.step`. The moves of a link come in pairs: an `Idle.` lemma for a reader
without a writer and a `Paired.` lemma for both, and where a move is not possible in one of the two
situations its lemma is missing.
-/

namespace CompTech.Fifo.Feeding

open Lib

/-! ## The general FIFO

What `Rendezvous` says of the pids is about the general FIFO alone; here it is brought into the form
in which the links need it: a pid has one reader, and at most one writer. -/

section General

variable {g g' : Fifo.State} {k j : Nat} {r : Reader} {w : Writer} {pid : Pid}

@[simp] theorem settle_readers (g : Fifo.State) : g.settle.readers = g.readers := by
  unfold Fifo.State.settle
  split <;> rfl

@[simp] theorem settle_writers (g : Fifo.State) : g.settle.writers = g.writers := by
  unfold Fifo.State.settle
  split <;> rfl

@[simp] theorem settle_posts (g : Fifo.State) : g.settle.posts = g.posts := by
  unfold Fifo.State.settle
  split <;> rfl

/-- A reader whose `open` returns stood in it. -/
theorem readerOpened_eq (h : Fifo.step g (.readerOpened k) = some g') :
    ∃ r seen, g.readers[k]? = some r ∧ r.pc = .opening seen ∧
      g' = g.setReader k { r with pc := .posting } := by
  obtain ⟨r, hr, h⟩ := Option.bind_eq_some_iff.mp h
  split at h
  · rename_i seen hpc
    obtain ⟨-, h⟩ := Option.ite_none_right_eq_some.mp h
    cases h
    exact ⟨r, seen, hr, hpc, rfl⟩
  · cases h

theorem readerPosts_eq (h : Fifo.step g (.readerPosts k) = some g') :
    ∃ r, g.readers[k]? = some r ∧ r.pc = .posting ∧ g' = transferPidFifo g k r := by
  obtain ⟨r, hr, h⟩ := Option.bind_eq_some_iff.mp h
  split at h
  · rename_i hpc
    cases h
    exact ⟨r, hr, hpc, rfl⟩
  · cases h

theorem readerLeaves_eq (h : Fifo.step g (.readerLeaves k) = some g') :
    ∃ r, g.readers[k]? = some r ∧ r.pc ≠ .left ∧
      g' = (g.setReader k { r with pc := .left }).settle := by
  obtain ⟨r, hr, h⟩ := Option.bind_eq_some_iff.mp h
  obtain ⟨hpc, h⟩ := Option.ite_none_right_eq_some.mp h
  cases h
  exact ⟨r, hr, hpc, rfl⟩

theorem writerOpened_eq (h : Fifo.step g (.writerOpened j) = some g') :
    ∃ w seen, g.writers[j]? = some w ∧ w.pc = .opening seen ∧
      g' = g.setWriter j { w with pc := .getting } := by
  obtain ⟨w, hw, h⟩ := Option.bind_eq_some_iff.mp h
  split at h
  · rename_i seen hpc
    obtain ⟨-, h⟩ := Option.ite_none_right_eq_some.mp h
    cases h
    exact ⟨w, seen, hw, hpc, rfl⟩
  · cases h

/-- Where the general FIFO is not empty. -/
theorem writerGets_eq {junk : Pid} (hfinds : g.dflt ≠ [])
    (h : Fifo.step g (.writerGets j junk) = some g') : ∃ w pid, g.writers[j]? = some w ∧
      w.pc = .getting ∧ g'.readers = g.readers ∧ g'.posts = g.posts ∧
      g'.writers = g.writers.set j { w with secrPid := some pid, pc := .feeding } := by
  obtain ⟨w, hw, h⟩ := Option.bind_eq_some_iff.mp h
  split at h
  · rename_i hpc
    unfold getPidFifo at h
    split at h
    · cases h
      exact ⟨w, _, hw, hpc, rfl, rfl, rfl⟩
    · rename_i hempty
      exact absurd hempty hfinds
  · cases h

theorem writerLeaves_eq (h : Fifo.step g (.writerLeaves j) = some g') :
    ∃ w, g.writers[j]? = some w ∧ w.pc ≠ .left ∧
      g' = (g.setWriter j { w with pc := .left }).settle := by
  obtain ⟨w, hw, h⟩ := Option.bind_eq_some_iff.mp h
  obtain ⟨hpc, h⟩ := Option.ite_none_right_eq_some.mp h
  cases h
  exact ⟨w, hw, hpc, rfl⟩

/-- No pid comes twice, and none is posted twice. -/
structure Apart (g : Fifo.State) : Prop where
  pids : (g.readers.map (·.secrPid)).Nodup
  posts : g.posts.Nodup
  /-- a pid that is posted is that of a reader who is past its post -/
  posted : ∀ pid ∈ g.posts, ∃ r ∈ g.readers, r.secrPid = pid ∧ (r.pc = .posted ∨ r.pc = .left)

theorem Apart.of_eq (h : Apart g) (hr : g'.readers = g.readers) (hp : g'.posts = g.posts) :
    Apart g' := ⟨hr ▸ h.pids, hp ▸ h.posts, by rw [hr, hp]; exact h.posted⟩

/-- Two readers of one pid are one reader. -/
theorem Apart.eq (h : Apart g) {r' : Reader} (hr : r ∈ g.readers) (hr' : r' ∈ g.readers)
    (hpid : r.secrPid = r'.secrPid) : r = r' :=
  List.inj_on_of_nodup_map h.pids hr hr' hpid

theorem map_set_reader (hr : g.readers[k]? = some r) (pc : ReadPc) :
    ((g.setReader k { r with pc := pc }).readers.map (·.secrPid)) =
      g.readers.map (·.secrPid) := by
  refine List.ext_getElem? fun i => ?_
  show ((g.readers.set k { r with pc := pc })|>.map _)[i]? = _
  rw [List.getElem?_map, List.getElem?_map, List.getElem?_set]
  split
  · rename_i hi
    subst hi
    rw [if_pos (List.getElem?_eq_some_iff.mp hr).1, hr]
    rfl
  · rfl

theorem mem_set_reader (hr : g.readers[k]? = some r) {r' : Reader} (pc : ReadPc)
    (h : r' ∈ g.readers) (hpc : r'.pc = .posted ∨ r'.pc = .left)
    (hkeep : r.pc = .posted ∨ r.pc = .left → pc = .posted ∨ pc = .left) :
    ∃ r'' ∈ (g.setReader k { r with pc := pc }).readers, r''.secrPid = r'.secrPid ∧
      (r''.pc = .posted ∨ r''.pc = .left) := by
  obtain ⟨i, hi⟩ := List.mem_iff_getElem?.mp h
  have hk := (List.getElem?_eq_some_iff.mp hr).1
  by_cases hik : i = k
  · subst hik
    obtain rfl : r = r' := Option.some_inj.mp (hr.symm.trans hi)
    exact ⟨{ r with pc := pc }, List.mem_of_getElem? (List.getElem?_set_self hk), rfl, hkeep hpc⟩
  · have hset : (g.setReader k { r with pc := pc }).readers[i]? = some r' :=
      (List.getElem?_set_ne (Ne.symm hik)).trans hi
    exact ⟨r', List.mem_of_getElem? hset, rfl, hpc⟩

theorem Apart.setReader (h : Apart g) (hr : g.readers[k]? = some r) (pc : ReadPc)
    (hkeep : r.pc = .posted ∨ r.pc = .left → pc = .posted ∨ pc = .left) :
    Apart (g.setReader k { r with pc := pc }) := by
  refine ⟨(map_set_reader hr pc).symm ▸ h.pids, h.posts, fun pid hpid => ?_⟩
  obtain ⟨r', hr', rfl, hpc⟩ := h.posted pid hpid
  exact mem_set_reader hr pc hr' hpc hkeep

theorem Apart.transferPidFifo (h : Apart g) (hr : g.readers[k]? = some r)
    (hpc : r.pc = .posting) : Apart (transferPidFifo g k r) := by
  unfold Fifo.transferPidFifo
  split
  · exact (h.setReader hr .left (fun _ => .inr rfl)).of_eq (settle_readers _) (settle_posts _)
  · have hset := h.setReader hr .posted (fun _ => .inl rfl)
    have hnew : r.secrPid ∉ g.posts := by
      intro hin
      obtain ⟨r', hr', hpid, hpc'⟩ := h.posted _ hin
      obtain rfl := h.eq hr' (List.mem_of_getElem? hr) hpid
      rw [hpc] at hpc'
      rcases hpc' with hc | hc <;> cases hc
    refine ⟨hset.pids, ?_, fun pid hpid => ?_⟩
    · exact List.nodup_append.mpr ⟨h.posts, List.nodup_singleton _, fun a ha b hb hab =>
        hnew (by rw [← List.mem_singleton.mp hb, ← hab]; exact ha)⟩
    · rcases List.mem_append.mp hpid with hpid | hpid
      · exact hset.posted pid hpid
      · obtain rfl := List.mem_singleton.mp hpid
        have hk := (List.getElem?_eq_some_iff.mp hr).1
        exact ⟨_, List.mem_of_getElem? (List.getElem?_set_self hk), rfl, .inl rfl⟩

theorem Apart.readerComes (h : Apart g) (hpid : ∀ r ∈ g.readers, r.secrPid ≠ pid)
    (hg : Fifo.step g (.readerComes pid) = some g') : Apart g' := by
  cases hg
  refine ⟨?_, h.posts, fun p hp => ?_⟩
  · show ((g.readers ++ [_]).map _).Nodup
    rw [List.map_append]
    refine List.nodup_append.mpr ⟨h.pids, List.nodup_singleton _, fun a ha b hb hab => ?_⟩
    obtain ⟨r, hr, rfl⟩ := List.mem_map.mp ha
    exact hpid r hr (hab.trans (List.mem_singleton.mp hb))
  · obtain ⟨r, hr, hrest⟩ := h.posted p hp
    exact ⟨r, List.mem_append_left _ hr, hrest⟩

/-- What two writers hold are two pids. -/
theorem held_unique (h : g.held.Nodup) {j j' : Nat} {w w' : Writer}
    (hw : g.writers[j]? = some w) (hw' : g.writers[j']? = some w')
    (hpid : w.secrPid = some pid) (hpid' : w'.secrPid = some pid) : j = j' := by
  have hpair := List.pairwise_filterMap.mp h
  rw [List.pairwise_iff_getElem] at hpair
  obtain ⟨hj, rfl⟩ := List.getElem?_eq_some_iff.mp hw
  obtain ⟨hj', rfl⟩ := List.getElem?_eq_some_iff.mp hw'
  rcases Nat.lt_trichotomy j j' with hlt | heq | hgt
  · exact absurd rfl (hpair j j' hj hj' hlt pid hpid pid hpid')
  · exact heq
  · exact absurd rfl (hpair j' j hj' hj hgt pid hpid' pid hpid)

end General

/-! ## A link

The account of a link, for any reader and writer that have met: what is printed, what the reader
holds and what is in the FIFO are what the writer has sent, and that is a beginning of its file. -/

/-- What the reader has read and not printed. -/
def DrainPc.held : DrainPc → List Byte
  | .writing buff => buff
  | .absent | .waiting | .reading | .closing | .exited _ => []

/-- What the writer has read and not put into the FIFO. -/
def FeedPc.pending : FeedPc → List Byte
  | .writing pending => pending
  | .meeting | .openingFile | .reading | .closing | .exited _ => []

/-- The file is what has been sent and what is still to be. -/
structure Feed.SplitsFile (f : Feed) : Prop where
  /-- while it runs: what is in the FIFO, what is pending, what is not read -/
  flow : (∀ ok, f.pc ≠ .exited ok) → f.sent ++ f.pc.pending ++ f.rest = f.file
  taken : f.sent <+: f.file
  fresh : f.pc = .meeting → f.sent = []
  /-- a writer at its end has sent all of it -/
  ended : f.pc = .closing ∨ f.pc = .exited true → f.sent = f.file

/-- The secret FIFO has had no writer. -/
structure Idle (l : Line) (d : Drain) : Prop where
  buf : l.buf = []
  wrEnds : l.wrEnds = 0
  wrOpens : l.wrOpens = 0
  rdEnds : l.rdEnds = if d.alive then 1 else 0
  /-- nobody had opened it when the reader did -/
  seen : d.seen = 0
  out : d.out = []
  pc : d.pc = .absent ∨ d.pc = .waiting ∨ d.pc = .exited false

/-- The secret FIFO between its reader and its writer. -/
structure Paired (l : Line) (d : Drain) (f : Feed) : Prop where
  wrEnds : l.wrEnds = if f.hasSecr then 1 else 0
  rdEnds : l.rdEnds = if d.alive then 1 else 0
  present : d.pc ≠ .absent
  opened : f.pc ≠ .meeting
  /-- while the reader is there nothing is lost -/
  flow : d.alive → d.out ++ d.pc.held ++ l.buf = f.sent
  taken : d.out <+: f.sent
  /-- a reader at its end has printed all that was sent, and the writer is gone -/
  ended : d.pc = .closing ∨ d.pc = .exited true → d.out = f.sent ∧ f.hasSecr = false

/-- What holds of the secret FIFO of a pid: nobody has fed it yet, or exactly one has. -/
def LinkOk (l : Line) (d : Drain) (ws : List Writer) (fs : List Feed) (pid : Pid) : Prop :=
  (Idle l d ∧ ∀ (j : Nat) (w : Writer) (f : Feed), ws[j]? = some w → fs[j]? = some f →
    w.secrPid = some pid → f.hasSecr = false) ∨
  ∃ (j : Nat) (w : Writer) (f : Feed), ws[j]? = some w ∧ fs[j]? = some f ∧
    w.secrPid = some pid ∧ Paired l d f

section Link

variable {l l' : Line} {d d' : Drain} {f f' : Feed} {w w' : Writer} {ws : List Writer}
  {fs : List Feed} {pid : Pid} {j : Nat}

/-- The reader's side of a link moves. -/
theorem LinkOk.drain (h : LinkOk l d ws fs pid) (hidle : Idle l d → Idle l' d')
    (hpaired : ∀ f, Paired l d f → Paired l' d' f) : LinkOk l' d' ws fs pid := by
  rcases h with ⟨hi, hnone⟩ | ⟨j, w, f, hw, hf, hpid, hp⟩
  · exact .inl ⟨hidle hi, hnone⟩
  · exact .inr ⟨j, w, f, hw, hf, hpid, hpaired f hp⟩

/-- The writer's side of a link moves, and no other writer is on it. -/
theorem LinkOk.feed (h : LinkOk l d ws fs pid) (hw : ws[j]? = some w) (hf : fs[j]? = some f)
    (hpid : w'.secrPid = some pid)
    (hown : ∀ (j' : Nat) (w' : Writer), ws[j']? = some w' → w'.secrPid = some pid → j' = j)
    (hidle : Idle l d → f.hasSecr = false → Idle l' d ∧ f'.hasSecr = false ∨ Paired l' d f')
    (hpaired : Paired l d f → Paired l' d f') (hsame : w.secrPid = some pid) :
    LinkOk l' d (ws.set j w') (fs.set j f') pid := by
  have hjw := (List.getElem?_eq_some_iff.mp hw).1
  have hjf := (List.getElem?_eq_some_iff.mp hf).1
  have hpair : Paired l' d f' → LinkOk l' d (ws.set j w') (fs.set j f') pid := fun hp =>
    .inr ⟨j, w', f', List.getElem?_set_self hjw, List.getElem?_set_self hjf, hpid, hp⟩
  rcases h with ⟨hi, hnone⟩ | ⟨j', w₀, f₀, hw₀, hf₀, hpid₀, hp⟩
  · rcases hidle hi (hnone j w f hw hf hsame) with ⟨hi', hsecr⟩ | hp
    · refine .inl ⟨hi', fun i v e hv he hvpid => ?_⟩
      by_cases hij : j = i
      · subst hij
        rw [List.getElem?_set_self hjf] at he
        cases he
        exact hsecr
      · rw [List.getElem?_set_ne hij] at hv he
        exact hnone i v e hv he hvpid
    · exact hpair hp
  · obtain rfl := hown j' w₀ hw₀ hpid₀
    obtain rfl : f₀ = f := Option.some_inj.mp (hf₀.symm.trans hf)
    exact hpair (hpaired hp)

/-- The writer of another link moves. -/
theorem LinkOk.frame (h : LinkOk l d ws fs pid) (hw : ws[j]? = some w)
    (hpid : w.secrPid ≠ some pid) (hpid' : w'.secrPid ≠ some pid) :
    LinkOk l d (ws.set j w') (fs.set j f') pid := by
  rcases h with ⟨hi, hnone⟩ | ⟨j', w₀, f₀, hw₀, hf₀, hpid₀, hp⟩
  · refine .inl ⟨hi, fun i v e hv he hvpid => ?_⟩
    by_cases hij : j = i
    · subst hij
      rw [List.getElem?_set_self (List.getElem?_eq_some_iff.mp hw).1] at hv
      cases hv
      exact absurd hvpid hpid'
    · rw [List.getElem?_set_ne hij] at hv he
      exact hnone i v e hv he hvpid
  · have hij : j ≠ j' := by
      rintro rfl
      obtain rfl : w₀ = w := Option.some_inj.mp (hw₀.symm.trans hw)
      exact hpid hpid₀
    exact .inr ⟨j', w₀, f₀, (List.getElem?_set_ne hij).trans hw₀,
      (List.getElem?_set_ne hij).trans hf₀, hpid₀, hp⟩

/-! ### The reader's side

The end of a reader closes its reading end, and a FIFO that nobody has open loses what is in it. So
the account of a link ends with its reader, and what it has printed by then is what remains to be
said. -/

theorem closeRead_rdEnds (l : Line) : l.closeRead.rdEnds = l.rdEnds - 1 := by
  unfold Line.closeRead Line.settle
  split <;> rfl

theorem closeRead_wrEnds (l : Line) : l.closeRead.wrEnds = l.wrEnds := by
  unfold Line.closeRead Line.settle
  split <;> rfl

theorem closeRead_wrOpens (l : Line) : l.closeRead.wrOpens = l.wrOpens := by
  unfold Line.closeRead Line.settle
  split <;> rfl

theorem closeWrite_rdEnds (l : Line) : l.closeWrite.rdEnds = l.rdEnds := by
  unfold Line.closeWrite Line.settle
  split <;> rfl

theorem closeWrite_wrEnds (l : Line) : l.closeWrite.wrEnds = l.wrEnds - 1 := by
  unfold Line.closeWrite Line.settle
  split <;> rfl

theorem Idle.readerExit (h : Idle l d) (hd : d.alive) :
    Idle l.closeRead { d with pc := .exited false } := by
  have hbuf : l.closeRead.buf = [] := by
    unfold Line.closeRead Line.settle
    split
    · rfl
    · exact h.buf
  refine ⟨hbuf, ?_, ?_, ?_, h.seen, h.out, .inr (.inr rfl)⟩
  · rw [closeRead_wrEnds, h.wrEnds]
  · rw [closeRead_wrOpens, h.wrOpens]
  · rw [closeRead_rdEnds, h.rdEnds, if_pos hd]
    rfl

/-- `out` is what is printed when the process exits. -/
theorem Paired.readerExit {ok : Bool} {out : List Byte} (h : Paired l d f) (hd : d.alive)
    (hout : out <+: f.sent) (hok : ok = true → d.pc = .closing ∧ out = d.out) :
    Paired l.closeRead { d with pc := .exited ok, out := out } f := by
  refine ⟨?_, ?_, by simp, h.opened, (fun halive => by cases halive), hout, ?_⟩
  · rw [closeRead_wrEnds, h.wrEnds]
  · rw [closeRead_rdEnds, h.rdEnds, if_pos hd]
    rfl
  · rintro (hpc | hpc)
    · cases hpc
    · cases hpc
      obtain ⟨hclosing, rfl⟩ := hok rfl
      exact h.ended (.inl hclosing)

/-- Nothing is drained from a FIFO that has had no writer. -/
theorem Idle.not_draining (h : Idle l d) (hpc : d.pc ≠ .waiting) : d.alive = false := by
  unfold Drain.alive
  rcases h.pc with hc | hc | hc
  · rw [hc]
  · exact absurd hc hpc
  · rw [hc]

/-- The reader goes on: it prints, or it holds more and the FIFO less. -/
theorem Paired.drain (h : Paired l d f) (hd : d.alive) (hd' : d'.alive) (hl : l'.wrEnds = l.wrEnds)
    (hl' : l'.rdEnds = l.rdEnds)
    (hflow : d'.out ++ d'.pc.held ++ l'.buf = d.out ++ d.pc.held ++ l.buf)
    (hclosing : d'.pc = .closing → l.wrEnds = 0 ∧ d'.pc.held ++ l'.buf = []) :
    Paired l' d' f := by
  have hsent : d'.out ++ d'.pc.held ++ l'.buf = f.sent := hflow.trans (h.flow hd)
  refine ⟨hl.trans h.wrEnds, ?_, ?_, h.opened, fun _ => hsent, ?_, ?_⟩
  · rw [hl', h.rdEnds, if_pos hd, if_pos hd']
  · rintro hpc
    rw [Drain.alive, hpc] at hd'
    cases hd'
  · rw [← hsent, List.append_assoc]
    exact List.prefix_append _ _
  · rintro (hpc | hpc)
    · obtain ⟨hends, hempty⟩ := hclosing hpc
      rw [List.append_assoc, hempty, List.append_nil] at hsent
      refine ⟨hsent, ?_⟩
      have hsecr := h.wrEnds
      rw [hends] at hsecr
      cases hf : f.hasSecr with
      | false => rfl
      | true => simp [hf] at hsecr
    · rw [Drain.alive, hpc] at hd'
      cases hd'

/-! ### The writer's side

The end of a writer loses nothing: what it has put in stays for the reader, who sees the end of the
FIFO when it has taken all of it. -/

/-- The writer goes on, with the secret FIFO open. -/
theorem Paired.feed (h : Paired l d f) (hf : f.hasSecr = true) (hf' : f'.hasSecr = true)
    (hl : l'.wrEnds = l.wrEnds) (hl' : l'.rdEnds = l.rdEnds) {chunk : List Byte}
    (hbuf : l'.buf = l.buf ++ chunk) (hsent : f'.sent = f.sent ++ chunk) : Paired l' d f' := by
  refine ⟨?_, hl'.trans h.rdEnds, h.present, ?_, fun hd => ?_, ?_, fun hpc => ?_⟩
  · rw [hl, h.wrEnds, if_pos hf, if_pos hf']
  · intro hpc
    rw [Feed.hasSecr, hpc] at hf'
    cases hf'
  · rw [hbuf, hsent, ← List.append_assoc, h.flow hd]
  · rw [hsent]
    exact h.taken.trans (List.prefix_append _ _)
  · have hended := (h.ended hpc).2
    rw [hf] at hended
    cases hended

/-- The writer exits; what it has put in stays while there is a reader. -/
theorem Paired.writerExit {ok : Bool} (h : Paired l d f) (hf : f.hasSecr = true) :
    Paired l.closeWrite d { f with pc := .exited ok } := by
  refine ⟨?_, ?_, h.present, by simp, fun hd => ?_, h.taken, fun hpc => ⟨(h.ended hpc).1, rfl⟩⟩
  · rw [closeWrite_wrEnds, h.wrEnds, if_pos hf]
    rfl
  · rw [closeWrite_rdEnds, h.rdEnds]
  · have hbuf : l.closeWrite.buf = l.buf := by
      have hrd := h.rdEnds
      rw [if_pos hd] at hrd
      unfold Line.closeWrite Line.settle
      rw [if_neg (by simp [hrd])]
    rw [hbuf]
    exact h.flow hd

theorem Idle.openWrite (h : Idle l d) (hd : l.rdEnds ≠ 0) (hf : f.sent = []) :
    Paired l.openWrite d { f with pc := .openingFile } := by
  have halive : d.alive = true := by
    by_contra hdead
    exact hd (by rw [h.rdEnds, if_neg hdead])
  have hpc : d.pc = .waiting := by
    by_contra hne
    rw [h.not_draining hne] at halive
    cases halive
  refine ⟨?_, h.rdEnds, by simp [hpc], by simp, fun _ => ?_, ?_, ?_⟩
  · show l.wrEnds + 1 = 1
    rw [h.wrEnds]
  · show d.out ++ d.pc.held ++ l.buf = f.sent
    rw [h.out, hpc, h.buf, hf]
    rfl
  · rw [h.out]
    exact List.nil_prefix
  · rw [hpc]
    rintro (hc | hc) <;> cases hc

end Link

/-! ### The file

What is read off a link when its two processes have come to an end. -/

section SplitsFile

variable {f : Feed} {chunk : List Byte} {ok : Bool} {count : Nat}

theorem Feed.SplitsFile.exit (h : f.SplitsFile) (hok : ok = true → f.pc = .closing) :
    Feed.SplitsFile { f with pc := .exited ok } := by
  refine ⟨fun hne => absurd rfl (hne ok), h.taken, (fun hpc => by cases hpc), ?_⟩
  rintro (hpc | hpc)
  · cases hpc
  · cases hpc
    exact h.ended (.inl (hok rfl))

/-- Between the two ends of the transfer there is only the account. -/
theorem Feed.SplitsFile.of_flow (hflow : f.sent ++ f.pc.pending ++ f.rest = f.file)
    (hmeeting : f.pc ≠ .meeting) (hclosing : f.pc ≠ .closing) (hexit : f.pc ≠ .exited true) :
    f.SplitsFile := by
  refine ⟨fun _ => hflow, ?_, fun hpc => absurd hpc hmeeting, fun hpc => ?_⟩
  · rw [← hflow, List.append_assoc]
    exact List.prefix_append _ _
  · exact hpc.elim (fun hc => absurd hc hclosing) (fun hc => absurd hc hexit)

theorem Feed.SplitsFile.flow_of (h : f.SplitsFile) {pc : FeedPc} (hpc : f.pc = pc)
    (hexit : ∀ ok, pc ≠ .exited ok) : f.sent ++ pc.pending ++ f.rest = f.file :=
  hpc ▸ h.flow (hpc ▸ hexit)

theorem Feed.SplitsFile.openSecr (h : f.SplitsFile) (hpc : f.pc = .meeting) :
    Feed.SplitsFile { f with pc := .openingFile } := by
  have hflow : f.sent ++ [] ++ f.rest = f.file := h.flow_of hpc (by simp)
  exact .of_flow hflow (by simp) (by simp) (by simp)

theorem Feed.SplitsFile.openFile (h : f.SplitsFile) (hpc : f.pc = .openingFile) :
    Feed.SplitsFile { f with pc := .reading } := by
  have hflow : f.sent ++ [] ++ f.rest = f.file := h.flow_of hpc (by simp)
  exact .of_flow hflow (by simp) (by simp) (by simp)

theorem Feed.SplitsFile.read (h : f.SplitsFile) (hpc : f.pc = .reading) :
    Feed.SplitsFile { f with pc := .writing (f.rest.take count), rest := f.rest.drop count } := by
  refine .of_flow ?_ (by simp) (by simp) (by simp)
  have hflow := h.flow_of hpc (by simp)
  show f.sent ++ f.rest.take count ++ f.rest.drop count = f.file
  rw [List.append_assoc, List.take_append_drop]
  simpa [FeedPc.pending] using hflow

theorem Feed.SplitsFile.readEnd (h : f.SplitsFile) (hpc : f.pc = .reading) (hrest : f.rest = []) :
    Feed.SplitsFile { f with pc := .closing } := by
  have hflow := h.flow_of hpc (by simp)
  refine ⟨fun _ => hflow, h.taken, (fun hpc => by cases hpc), fun _ => ?_⟩
  show f.sent = f.file
  simpa [FeedPc.pending, hrest] using hflow

theorem Feed.SplitsFile.put {pending : List Byte} (h : f.SplitsFile)
    (hpc : f.pc = .writing pending) :
    Feed.SplitsFile { f with
      pc := if count = pending.length then .reading else .writing (pending.drop count)
      sent := f.sent ++ pending.take count } := by
  have hflow : f.sent ++ pending ++ f.rest = f.file := h.flow_of hpc (by simp)
  refine .of_flow ?_ ?_ ?_ ?_
  · show f.sent ++ pending.take count ++ FeedPc.pending (if _ then _ else _) ++ f.rest = f.file
    have hleft : FeedPc.pending (if count = pending.length then .reading
        else .writing (pending.drop count)) = pending.drop count := by
      split
      · rename_i heq
        rw [heq, List.drop_length]
        rfl
      · rfl
    rw [hleft, List.append_assoc f.sent, List.take_append_drop]
    exact hflow
  · dsimp only
    split <;> simp
  · dsimp only
    split <;> simp
  · dsimp only
    split <;> simp

end SplitsFile

end CompTech.Fifo.Feeding
