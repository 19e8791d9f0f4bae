import CompTech.Lib.Tables
import CompTech.Sharmem.Steps

/-!
# The connection accounts

`ALONE_WR`, `ALONE_RD` and `NUM_PROC` are counters of processes: each process adds to them with
`SEM_UNDO`, so that what it has added is taken back when it dies. The invariant `Accounts` says
what every live process has recorded to be taken back, as a function of its phase (`adjWr`,
`adjRd`), and that the three values count the processes in the phases that added to them.

One adjustment is out of line: the last operation of the reader takes EMPTY down by one, and so
records a second one. The reader that comes next clears it with its `SETVAL`; `cleared` says
that it is gone whenever EMPTY means something.

The proof has three layers. `change_writer` and `change_reader` say what one step does to the
counters in terms of `Lib.Handover`; `Accounts.writerMoved` and `readerMoved` turn such a change and
the rule it follows into the accounts after the step; and the sections on the steps of a writer and
of a reader go through the cases of `Steps`. `Counted` is what is left of a step for those that only
look at the counters: either they stay as they are or the protocol makes a move.
-/

namespace CompTech.Sharmem

open Lib

/-- What a writer in phase `p` has recorded. -/
def adjWr (p : Phase) : SEM → Int
  | .aloneWr => -(p.active.toNat : Int)
  | .numProc => -(p.connected.toNat : Int)
  | .full => p.connected.toNat
  | _ => 0

/-- What a reader in phase `p` has recorded. -/
def adjRd (p : Phase) : SEM → Int
  | .aloneRd => -(p.active.toNat : Int)
  | .numProc => -(p.connected.toNat : Int)
  | .empty => p.connected.toNat
  | _ => 0

/-- The writer has recorded what its phase says, and nothing else. -/
def Writer.Exact (w : Writer) : Prop := w.task.adj = adjWr w.pc.phase

/-- The reader has recorded what its phase says, and nothing else. -/
def Reader.Exact (r : Reader) : Prop := r.task.adj = adjRd r.pc.phase

/-- The reader is exact, but for EMPTY at its end. -/
def Reader.Near (r : Reader) : Prop :=
  ∀ x, x ≠ .empty ∨ r.pc.phase ≠ .ended → r.task.adj x = adjRd r.pc.phase x

/-- Some reader has set EMPTY and is not gone since. -/
def Settled (c : Ctl) : Prop := 0 < c.n .right .post + c.n .right .posted + c.connected .right

/-- The invariant, for the values `v` of a set that is there. -/
structure Accounts (s : State) (v : SEM → Nat) : Prop where
  /-- the three values count processes, and each side has one at most -/
  acct : Acct (s.ctl v)
  writers : ∀ w ∈ s.writers, w.task.live = true → w.Exact
  readers : ∀ r ∈ s.readers, r.task.live = true → r.Near
  /-- where EMPTY means something no reader has the second adjustment any more -/
  cleared : Settled (s.ctl v) → ∀ r ∈ s.readers, r.task.live = true → r.Exact
  /-- no value is beyond what a semaphore may hold, so no operation fails with `ERANGE` -/
  le_max : ∀ x, (v x : Int) ≤ SEMVMX

/-- The side whose process an event ends. -/
def Event.exits : Event → Option Side
  | .writer _ .exit | .writer _ .kill => some .left
  | .reader _ .exit | .reader _ .kill => some .right
  | _ => none

/-! ## The counters after a step

The effect of one step on the three counters and the phases, before anything is said about the
accounts. -/

section Views

variable {ws rs : List (Option Phase)} {i : Nat} {p : Phase} {q : Option Phase} {v v' : SEM → Nat}
  {slotOther tokOwn tokOther alone numProc : Int}

/-- Writer `i` goes from phase `p` to `q`, and the values change by the given amounts: what that is
    for the counters. Its own slot, FULL, is left to the rule. -/
theorem change_writer (h : ws[i]? = some (some p))
    (hempty : (v' .empty : Int) = v .empty + slotOther)
    (hown : (v' .syncRd : Int) = v .syncRd + tokOwn)
    (hother : (v' .syncWr : Int) = v .syncWr + tokOther)
    (halone : (v' .aloneWr : Int) = v .aloneWr + alone) (hrd : v' .aloneRd = v .aloneRd)
    (hnum : (v' .numProc : Int) = v .numProc + numProc) :
    Change (view ws rs v) (view (ws.set i q) rs v') .left p q slotOther tokOwn tokOther alone
      numProc where
  own := count_set_add h
  other _ := rfl
  slotOther := hempty
  tokOwn := hown
  tokOther := hother
  aloneOwn := halone
  aloneOther := hrd
  numProc := hnum

theorem change_reader (h : rs[i]? = some (some p)) (hfull : (v' .full : Int) = v .full + slotOther)
    (hown : (v' .syncWr : Int) = v .syncWr + tokOwn)
    (hother : (v' .syncRd : Int) = v .syncRd + tokOther)
    (halone : (v' .aloneRd : Int) = v .aloneRd + alone) (hwr : v' .aloneWr = v .aloneWr)
    (hnum : (v' .numProc : Int) = v .numProc + numProc) :
    Change (view ws rs v) (view ws (rs.set i q) v') .right p q slotOther tokOwn tokOther alone
      numProc where
  own := count_set_add h
  other _ := rfl
  slotOther := hfull
  tokOwn := hown
  tokOther := hother
  aloneOwn := halone
  aloneOther := hwr
  numProc := hnum

end Views

/-- A completed operation of the writer is the move of its phase. -/
theorem WriterOp.rule {pc next : WriterPc} {ops : List (Sembuf SEM)} {v v' : SEM → Nat}
    {adj adj' : SEM → Int} (ho : WriterOp pc ops next) (hd : semop ops v adj = .done v' adj')
    (ws rs : List (Option Phase)) :
    Rule initSlot (view ws rs v) .left pc.phase (some next.phase) (net .empty ops)
      (net .syncRd ops) (net .syncWr ops) (net .aloneWr ops) (net .numProc ops) (v' .full) := by
  -- one rule of the protocol for each operation; what it does to the values is computed from the
  -- array, and the guard of the rule is what the call has waited for
  cases ho with
  | alone =>
    rw [semop_unchanged hd rfl]
    exact .alone ((semop_done_head hd).1 rfl)
  | wait =>
    rw [semop_unchanged hd rfl]
    exact .wait ((semop_done_head hd).1 rfl)
  | syncRead =>
    rw [semop_unchanged hd rfl]
    exact .post
  | syncWrite =>
    rw [semop_unchanged hd rfl]
    exact .connect
  | pEmpty =>
    rw [semop_unchanged hd rfl]
    exact .take
  | check =>
    have hnum : 0 ≤ (v .numProc : Int) + -2 := (semop_done_head hd).2
    rw [semop_unchanged hd rfl]
    exact .check (by simp only [view]; omega)
  | vFull =>
    rw [semop_succ hd rfl]
    exact .give
  | vFullLast =>
    rw [semop_succ hd rfl]
    exact .giveLast
  | endWr => exact .leave _

theorem WriterOp.adj {pc next : WriterPc} {ops : List (Sembuf SEM)} (ho : WriterOp pc ops next)
    (x : SEM) : adjWr next.phase x = adjWr pc.phase x - undoNet x ops := by
  cases ho <;> cases x <;> rfl

/-- The writer leaves the counter of the readers alone. -/
theorem WriterOp.net_aloneRd {pc next : WriterPc} {ops : List (Sembuf SEM)}
    (ho : WriterOp pc ops next) : net .aloneRd ops = 0 := by
  cases ho <;> rfl

/-- A completed operation of the reader is the move of its phase, too. -/
theorem ReaderOp.rule {pc next : ReaderPc} {ops : List (Sembuf SEM)} {v v' : SEM → Nat}
    {adj adj' : SEM → Int} (ho : ReaderOp pc ops next) (hd : semop ops v adj = .done v' adj')
    (ws rs : List (Option Phase)) :
    Rule initSlot (view ws rs v) .right pc.phase (some next.phase) (net .full ops)
      (net .syncWr ops) (net .syncRd ops) (net .aloneRd ops) (net .numProc ops) (v' .empty) := by
  cases ho with
  | alone =>
    rw [semop_unchanged hd rfl]
    exact .alone ((semop_done_head hd).1 rfl)
  | wait =>
    rw [semop_unchanged hd rfl]
    exact .wait ((semop_done_head hd).1 rfl)
  | syncWrite =>
    rw [semop_unchanged hd rfl]
    exact .post
  | syncRead =>
    rw [semop_unchanged hd rfl]
    exact .connect
  | pFull =>
    rw [semop_unchanged hd rfl]
    exact .take
  | check =>
    have hnum : 0 ≤ (v .numProc : Int) + -2 := (semop_done_head hd).2
    rw [semop_unchanged hd rfl]
    exact .check (by simp only [view]; omega)
  | vEmpty =>
    rw [semop_succ hd rfl]
    exact .give
  | vEmptyLast =>
    rw [semop_succ hd rfl]
    exact .giveLast
  | endRd => exact .leave _

/-- It records what it has added, but for EMPTY in its last operation. -/
theorem ReaderOp.adj {pc next : ReaderPc} {ops : List (Sembuf SEM)} (ho : ReaderOp pc ops next)
    (x : SEM) (hx : x ≠ .empty ∨ next.phase ≠ .ended) :
    adjRd next.phase x = adjRd pc.phase x - undoNet x ops := by
  cases ho with
  | endRd =>
    cases x with
    | empty => exact absurd rfl (hx.resolve_left (not_not_intro rfl))
    | _ => rfl
  | _ => cases x <;> rfl

/-- Where the operations of the reader lead: the last phase is reached from the leaving one only. -/
theorem ReaderOp.phases {pc next : ReaderPc} {ops : List (Sembuf SEM)} (ho : ReaderOp pc ops next) :
    pc.phase ≠ .ended ∧ pc.phase ≠ .setval ∧ (pc.phase ≠ .leaving → next.phase ≠ .ended) := by
  cases ho with
  | endRd => exact ⟨Phase.noConfusion, Phase.noConfusion, fun h => absurd rfl h⟩
  | _ => exact ⟨Phase.noConfusion, Phase.noConfusion, fun _ => Phase.noConfusion⟩

/-- The reader leaves the counter of the writers alone. -/
theorem ReaderOp.net_aloneWr {pc next : ReaderPc} {ops : List (Sembuf SEM)}
    (ho : ReaderOp pc ops next) : net .aloneWr ops = 0 := by
  cases ho <;> rfl

/-! ## Keeping the accounts

A step of one process and the change it makes are put together; the others keep what they have
recorded. -/

variable {s t : State} {v v' : SEM → Nat} {i j : Nat} {w w' : Writer} {r r' : Reader}

/-- A process that is there is counted somewhere, and in the phase of its place unless it has failed
    before its first operation. -/
theorem Task.phase_some {k : Task} {p : Phase} (h : k.live = true) :
    ∃ q, k.phase p = some q ∧ (q = p ∨ p = .start ∧ q = .ended) := by
  unfold Task.phase
  cases hl : k.life with
  | running => exact ⟨p, rfl, .inl rfl⟩
  | failing =>
    by_cases hp : p = .start
    · exact ⟨.ended, by rw [if_pos hp], .inr ⟨hp, rfl⟩⟩
    · exact ⟨p, by rw [if_neg hp], .inl rfl⟩
  | dead =>
    simp only [Task.live, hl, ne_eq, not_true_eq_false, decide_false, Bool.false_eq_true] at h

/-- While it runs it is counted where it is. -/
theorem Task.phase_running {k : Task} (h : k.life = .running) (p : Phase) : k.phase p = some p := by
  unfold Task.phase
  rw [h]

/-- A process that runs is there. -/
theorem Task.live_running {k : Task} (h : k.life = .running) : k.live = true := by
  unfold Task.live
  rw [h]
  rfl

/-- A process that is there counts in its phase. -/
theorem State.writer_counts (v : SEM → Nat) (hw : s.writers[i]? = some w) {p : Phase}
    (hp : w.phase = some p) : 0 < (s.ctl v).n .left p := by
  refine List.count_pos_iff.mpr ?_
  rw [← hp]
  exact List.mem_map_of_mem (List.mem_of_getElem? hw)

theorem State.reader_counts (v : SEM → Nat) (hr : s.readers[j]? = some r) {p : Phase}
    (hp : r.phase = some p) : 0 < (s.ctl v).n .right p := by
  refine List.count_pos_iff.mpr ?_
  rw [← hp]
  exact List.mem_map_of_mem (List.mem_of_getElem? hr)

/-- A phase that is taken is part of the sums it belongs to. -/
theorem active_pos {c : Ctl} {x : Side} {p : Phase} (h : 0 < c.n x p) :
    p.active.toNat ≤ c.active x ∧ p.connected.toNat ≤ c.connected x := by
  unfold Ctl.active Ctl.connected
  cases p <;> simp only [Phase.active, Phase.connected, Bool.toNat_true, Bool.toNat_false] <;> omega

/-- Writer `i` has become `w'`, and what it has recorded is right. -/
theorem Accounts.setWriter (h : Accounts s v) (hws : t.writers = s.writers.set i w')
    (hrs : t.readers = s.readers) (hacct : Acct (t.ctl v'))
    (hn : ∀ ph, (t.ctl v').n .right ph = (s.ctl v).n .right ph)
    (hexact : w'.task.live = true → w'.Exact) (hmax : ∀ x, (v' x : Int) ≤ SEMVMX) :
    Accounts t v' where
  acct := hacct
  writers w₀ hw₀ hlive := by
    rw [hws] at hw₀
    rcases (List.mem_or_eq_of_mem_set hw₀).symm with rfl | hmem
    · exact hexact hlive
    · exact h.writers w₀ hmem hlive
  readers := hrs ▸ h.readers
  cleared hset := by
    rw [hrs]
    refine h.cleared ?_
    simpa only [Settled, Ctl.connected, hn] using hset
  le_max := hmax

/-- Reader `j` has become `r'`; when EMPTY means something, everybody is exact. -/
theorem Accounts.setReader (h : Accounts s v) (hws : t.writers = s.writers)
    (hrs : t.readers = s.readers.set j r') (hacct : Acct (t.ctl v'))
    (hnear : r'.task.live = true → r'.Near)
    (hexact : Settled (t.ctl v') → (r'.task.live = true → r'.Exact) ∧
      ∀ r ∈ s.readers, r.task.live = true → r.Exact)
    (hmax : ∀ x, (v' x : Int) ≤ SEMVMX) :
    Accounts t v' where
  acct := hacct
  writers := hws ▸ h.writers
  readers r₀ hr₀ hlive := by
    rw [hrs] at hr₀
    rcases (List.mem_or_eq_of_mem_set hr₀).symm with rfl | hmem
    · exact hnear hlive
    · exact h.readers r₀ hmem hlive
  cleared hset r₀ hr₀ hlive := by
    rw [hrs] at hr₀
    rcases (List.mem_or_eq_of_mem_set hr₀).symm with rfl | hmem
    · exact (hexact hset).1 hlive
    · exact (hexact hset).2 r₀ hmem hlive
  le_max := hmax

/-- What a step makes of the counters. -/
inductive Counted (c c' : Ctl) (e : Event) : Prop
  | still : c' = c → Counted c c' e
  | moved (x : Side) : CtlStep initSlot c c' x → (CleanStep c c' x ∨ e.exits = some x) →
      Counted c c' e

/-- The counters after a step of writer `i`. -/
theorem State.ctl_setWriter (hws : t.writers = s.writers.set i w') (hrs : t.readers = s.readers) :
    t.ctl v' = view (s.writerPhases.set i w'.phase) s.readerPhases v' := by
  simp only [State.ctl, State.writerPhases, State.readerPhases, hws, hrs, List.map_set]

theorem State.ctl_setReader (hws : t.writers = s.writers) (hrs : t.readers = s.readers.set j r') :
    t.ctl v' = view s.writerPhases (s.readerPhases.set j r'.phase) v' := by
  simp only [State.ctl, State.writerPhases, State.readerPhases, hws, hrs, List.map_set]

/-- Entry `i` of the phases is the phase of writer `i`. -/
theorem State.writerPhases_get (hw : s.writers[i]? = some w) :
    s.writerPhases[i]? = some w.phase := by
  rw [State.writerPhases, List.getElem?_map, hw, Option.map_some]

theorem State.readerPhases_get (hr : s.readers[j]? = some r) :
    s.readerPhases[j]? = some r.phase := by
  rw [State.readerPhases, List.getElem?_map, hr, Option.map_some]

/-- A writer that keeps its phase and what it has recorded changes no counter. -/
theorem Accounts.writerStill (h : Accounts s v) (hw : s.writers[i]? = some w)
    (hws : t.writers = s.writers.set i w') (hrs : t.readers = s.readers)
    (hphase : w'.phase = w.phase) (hexact : w'.task.live = true → w'.Exact) :
    Accounts t v ∧ t.ctl v = s.ctl v := by
  have hctl : t.ctl v = s.ctl v := by
    rw [State.ctl_setWriter hws hrs, hphase, set_self (State.writerPhases_get hw)]
    rfl
  refine ⟨h.setWriter hws hrs ?_ (fun _ => ?_) hexact h.le_max, hctl⟩
  · rw [hctl]
    exact h.acct
  · rw [hctl]

theorem Accounts.readerStill (h : Accounts s v) (hr : s.readers[j]? = some r)
    (hws : t.writers = s.writers) (hrs : t.readers = s.readers.set j r')
    (hphase : r'.phase = r.phase) (hpc : r'.pc.phase = r.pc.phase) (hadj : r'.task.adj = r.task.adj)
    (hlive : r'.task.live = r.task.live) :
    Accounts t v ∧ t.ctl v = s.ctl v := by
  have hmem := List.mem_of_getElem? hr
  have hctl : t.ctl v = s.ctl v := by
    rw [State.ctl_setReader hws hrs, hphase, set_self (State.readerPhases_get hr)]
    rfl
  refine ⟨h.setReader hws hrs ?_ ?_ ?_ h.le_max, hctl⟩
  · rw [hctl]
    exact h.acct
  · intro hl
    have hnear := h.readers r hmem (hlive ▸ hl)
    unfold Reader.Near at hnear ⊢
    rwa [hpc, hadj]
  · intro hset
    rw [hctl] at hset
    refine ⟨fun hl => ?_, h.cleared hset⟩
    have hexact := h.cleared hset r hmem (hlive ▸ hl)
    unfold Reader.Exact at hexact ⊢
    rw [hpc, hadj, hexact]

/-- A writer that moves by a rule of the protocol, and records what it adds: the accounts are kept,
    the counters make that step, and it is a clean one unless the writer is gone by it. -/
theorem Accounts.writerMoved (h : Accounts s v) (hw : s.writers[i]? = some w)
    (hws : t.writers = s.writers.set i w') (hrs : t.readers = s.readers) {p : Phase}
    (hp : w.phase = some p) {so tx ty al np : Int}
    (hrule : Rule initSlot (s.ctl v) .left p w'.phase so tx ty al np (v' .full))
    (hempty : (v' .empty : Int) = v .empty + so) (hown : (v' .syncRd : Int) = v .syncRd + tx)
    (hother : (v' .syncWr : Int) = v .syncWr + ty) (halone : (v' .aloneWr : Int) = v .aloneWr + al)
    (hrd : v' .aloneRd = v .aloneRd) (hnum : (v' .numProc : Int) = v .numProc + np)
    (hexact : w'.task.live = true → w'.Exact) (hmax : ∀ x, (v' x : Int) ≤ SEMVMX) :
    Accounts t v' ∧ CtlStep initSlot (s.ctl v) (t.ctl v') .left ∧
      (w'.phase ≠ none → CleanStep (s.ctl v) (t.ctl v') .left) := by
  have hget := State.writerPhases_get hw
  rw [hp] at hget
  have hch : Change (s.ctl v) (t.ctl v') .left p w'.phase so tx ty al np := by
    rw [State.ctl_setWriter hws hrs]
    exact change_writer hget hempty hown hother halone hrd hnum
  have hstep : CtlStep initSlot (s.ctl v) (t.ctl v') .left := .mk hrule hch
  refine ⟨h.setWriter hws hrs (h.acct.step hstep) hch.other hexact hmax, hstep, fun hq => ?_⟩
  obtain ⟨q, hq'⟩ := Option.ne_none_iff_exists'.mp hq
  rw [hq'] at hch
  exact .of_change hch

/-- EMPTY comes to mean something by a `SETVAL` only, and a leaving reader ends that. -/
theorem settled_back {c c' : Ctl} {p : Phase} {q : Option Phase} {so tx ty al np : Int} {slot : Nat}
    (ha : Acct c) (hrule : Rule initSlot c .right p q so tx ty al np slot)
    (hch : Change c c' .right p q so tx ty al np) (hset : Settled c') :
    p ≠ .leaving ∧ (p = .setval ∧ q ≠ none ∨ Settled c) := by
  have hle := ha.le_one .right
  have hparts := (c.parts .right).1
  have hconn := hch.sums.2.1
  have e₃ := hch.own .post
  have e₄ := hch.own .posted
  unfold Settled at hset ⊢
  cases hrule with
  | setval => exact ⟨Phase.noConfusion, .inl ⟨rfl, Option.some_ne_none _⟩⟩
  | leave =>
    simp only [reduceCtorEq, if_false, Option.some.injEq, Nat.add_zero, Option.any_some,
      Phase.connected, Bool.toNat_true, Bool.toNat_false] at e₃ e₄ hconn
    omega
  | die p =>
    simp only [reduceCtorEq, if_false, Nat.add_zero, Option.any_none, Bool.toNat_false]
      at e₃ e₄ hconn
    refine ⟨?_, .inr (by omega)⟩
    rintro rfl
    simp only [reduceCtorEq, if_false, Phase.connected, Bool.toNat_true, Nat.add_zero]
      at e₃ e₄ hconn
    omega
  | _ =>
    refine ⟨Phase.noConfusion, .inr ?_⟩
    simp only [reduceCtorEq, if_false, if_true, Option.some.injEq, Nat.add_zero, Option.any_some,
      Phase.connected, Bool.toNat_true, Bool.toNat_false] at e₃ e₄ hconn
    omega

/-- The same for a reader. When its move is the `SETVAL`, all readers have to be exact afterwards
    (`hall`); when it leaves, it may keep the second adjustment. -/
theorem Accounts.readerMoved (h : Accounts s v) (hr : s.readers[j]? = some r)
    (hws : t.writers = s.writers) (hrs : t.readers = s.readers.set j r') {p : Phase}
    (hp : r.phase = some p) {so tx ty al np : Int}
    (hrule : Rule initSlot (s.ctl v) .right p r'.phase so tx ty al np (v' .empty))
    (hfull : (v' .full : Int) = v .full + so) (hown : (v' .syncWr : Int) = v .syncWr + tx)
    (hother : (v' .syncRd : Int) = v .syncRd + ty) (halone : (v' .aloneRd : Int) = v .aloneRd + al)
    (hwr : v' .aloneWr = v .aloneWr) (hnum : (v' .numProc : Int) = v .numProc + np)
    (hnear : r'.task.live = true → r'.Near ∧ (p ≠ .leaving → r'.Exact))
    (hall : p = .setval → r'.phase ≠ none → ∀ r ∈ s.readers, r.task.live = true → r.Exact)
    (hmax : ∀ x, (v' x : Int) ≤ SEMVMX) :
    Accounts t v' ∧ CtlStep initSlot (s.ctl v) (t.ctl v') .right ∧
      (r'.phase ≠ none → CleanStep (s.ctl v) (t.ctl v') .right) := by
  have hget := State.readerPhases_get hr
  rw [hp] at hget
  have hch : Change (s.ctl v) (t.ctl v') .right p r'.phase so tx ty al np := by
    rw [State.ctl_setReader hws hrs]
    exact change_reader hget hfull hown hother halone hwr hnum
  have hstep : CtlStep initSlot (s.ctl v) (t.ctl v') .right := .mk hrule hch
  refine ⟨h.setReader hws hrs (h.acct.step hstep) (fun hl => (hnear hl).1) (fun hset => ?_) hmax,
    hstep, fun hq => ?_⟩
  · obtain ⟨hne, hor⟩ := settled_back h.acct hrule hch hset
    exact ⟨fun hl => (hnear hl).2 hne, hor.elim (fun hs => hall hs.1 hs.2) h.cleared⟩
  · obtain ⟨q, hq'⟩ := Option.ne_none_iff_exists'.mp hq
    rw [hq'] at hch
    exact .of_change hch

/-! ## Clearing

`SETVAL` clears the adjustments of every process for its semaphore, which is why EMPTY is the one
that needs care. -/

/-- `SETVAL` before it sets the value: all adjustments of `sem` are cleared. -/
def State.clearAll (s : State) (sem : SEM) : State :=
  { s with writers := s.writers.map (·.clear sem), readers := s.readers.map (·.clear sem) }

/-- Adjustments are not counted. -/
theorem State.ctl_clearAll (s : State) (sem : SEM) : (s.clearAll sem).ctl v = s.ctl v := by
  simp only [State.ctl, State.clearAll, State.writerPhases, State.readerPhases, List.map_map]
  rfl

/-- What clearing comes to, for the one who knows the rest. -/
theorem clearAdj_eq {f g : SEM → Int} {sem : SEM} (hne : ∀ x, x ≠ sem → f x = g x)
    (hz : g sem = 0) : clearAdj f sem = g := by
  funext x
  by_cases hx : x = sem
  · rw [hx, clearAdj_self, hz]
  · rw [clearAdj_of_ne hx, hne x hx]

/-- Clearing what nobody should have recorded leaves the accounts right. -/
theorem Accounts.clearAll (h : Accounts s v) {sem : SEM}
    (hw : ∀ w ∈ s.writers, w.task.live = true → adjWr w.pc.phase sem = 0)
    (hr : ∀ r ∈ s.readers, r.task.live = true → adjRd r.pc.phase sem = 0) :
    Accounts (s.clearAll sem) v ∧
      (sem = .empty → ∀ r ∈ (s.clearAll sem).readers, r.task.live = true → r.Exact) := by
  have hexact : ∀ r ∈ s.readers, r.task.live = true → (sem = .empty ∨ r.Exact) →
      (r.clear sem).Exact := by
    intro r hmem hlive hor
    refine clearAdj_eq (fun x hx => ?_) (hr r hmem hlive)
    rcases hor with rfl | he
    · exact h.readers r hmem hlive x (.inl hx)
    · rw [he]
      rfl
  refine ⟨⟨?_, ?_, ?_, ?_, h.le_max⟩, ?_⟩
  · rw [State.ctl_clearAll]
    exact h.acct
  · intro w₀ hmem hlive
    obtain ⟨w, hw₀, rfl⟩ := List.mem_map.mp hmem
    refine clearAdj_eq (fun x _ => ?_) (hw w hw₀ hlive)
    rw [h.writers w hw₀ hlive]
    rfl
  · intro r₀ hmem hlive x hx
    obtain ⟨r, hr₀, rfl⟩ := List.mem_map.mp hmem
    have hnear := h.readers r hr₀ hlive x hx
    by_cases hs : x = sem
    · subst hs
      exact (clearAdj_self _ _).trans (hr r hr₀ hlive).symm
    · exact (clearAdj_of_ne hs _).trans hnear
  · intro hset r₀ hmem hlive
    obtain ⟨r, hr₀, rfl⟩ := List.mem_map.mp hmem
    rw [State.ctl_clearAll] at hset
    exact hexact r hr₀ hlive (.inr (h.cleared hset r hr₀ hlive))
  · intro hs r₀ hmem hlive
    obtain ⟨r, hr₀, rfl⟩ := List.mem_map.mp hmem
    exact hexact r hr₀ hlive (.inl hs)

/-- While a process sets its slot, nobody of its side is connected. -/
theorem connected_of_setval {c : Ctl} (h : Acct c) {x : Side} (hn : 0 < c.n x .setval) :
    c.connected x = 0 ∧ c.n x .post = 0 ∧ c.n x .posted = 0 := by
  have hle := h.le_one x
  have hparts := (c.parts x).1
  refine ⟨?_, ?_, ?_⟩ <;> omega

/-- Where nobody is connected, the process is not. -/
theorem phase_not_connected {c : Ctl} {x : Side} {p q : Phase} (h0 : c.connected x = 0)
    (hq : 0 < c.n x q) (hor : q = p ∨ p = .start ∧ q = .ended) : p.connected = false := by
  have hle := (active_pos hq).2
  rw [h0] at hle
  rcases hor with rfl | ⟨rfl, -⟩
  · exact Bool.toNat_eq_zero.mp (Nat.le_zero.mp hle)
  · rfl

/-- What a process does on its own keeps its phase and what it has recorded. -/
theorem WriterLocal.kept {shmLen : Nat} {shmData : List Byte}
    (h : WriterLocal s w w' shmLen shmData) : w'.pc.phase = w.pc.phase ∧
      w'.task.adj = w.task.adj ∧ w'.task.life = w.task.life ∧ w'.file = w.file := by
  cases h with
  | sleep => exact ⟨rfl, rfl, rfl, rfl⟩
  | openFile hpc => rw [hpc]; exact ⟨rfl, rfl, rfl, rfl⟩
  | read k hpc => rw [hpc]; exact ⟨rfl, rfl, rfl, rfl⟩
  | memcpy hpc => rw [hpc]; exact ⟨rfl, rfl, rfl, rfl⟩
  | storeNumSymb hpc => rw [hpc]; exact ⟨rfl, rfl, rfl, rfl⟩
  | closeFile hpc => rw [hpc]; exact ⟨rfl, rfl, rfl, rfl⟩
  | unlinkShm hpc => rw [hpc]; exact ⟨rfl, rfl, rfl, rfl⟩
  | deleteShm hpc => rw [hpc]; exact ⟨rfl, rfl, rfl, rfl⟩

theorem ReaderLocal.kept (h : ReaderLocal s r r') : r'.pc.phase = r.pc.phase ∧
    r'.task.adj = r.task.adj ∧ r'.task.life = r.task.life := by
  cases h with
  | sleep => exact ⟨rfl, rfl, rfl⟩
  | load hpc => rw [hpc]; exact ⟨rfl, rfl, rfl⟩
  | write hpc => rw [hpc]; exact ⟨rfl, rfl, rfl⟩
  | unlinkShm hpc => rw [hpc]; exact ⟨rfl, rfl, rfl⟩

/-! ## The steps of a writer -/

section Writers

variable (h : Accounts s v) (hw : s.writers[i]? = some w)
include h hw

/-- A completed operation: the rule of its phase (`WriterOp.rule`) and what it records
    (`WriterOp.adj`). -/
theorem Accounts.writerSemop (hrun : w.task.life = .running) {ops : List (Sembuf SEM)}
    {next : WriterPc} {adj : SEM → Int} (ho : WriterOp w.pc ops next)
    (hd : semop ops v w.task.adj = .done v' adj)
    (hw' : w' = { w with task := { w.task with adj := adj, asleep := false }, pc := next })
    (ht : t = { s with sems := some v' }.setWriter i w') :
    Accounts t v' ∧ CtlStep initSlot (s.ctl v) (t.ctl v') .left ∧
      CleanStep (s.ctl v) (t.ctl v') .left := by
  have hsum := fun x => (semop_done hd x).1
  have hphase : w.phase = some w.pc.phase := Task.phase_running hrun _
  have hphase' : w'.phase = some next.phase := by
    rw [hw']
    exact Task.phase_running hrun _
  have hrule := ho.rule hd s.writerPhases s.readerPhases
  rw [← hphase'] at hrule
  have hexact : w'.Exact := by
    have hadj : w.task.adj = adjWr w.pc.phase :=
      h.writers w (List.mem_of_getElem? hw) (Task.live_running hrun)
    rw [hw']
    funext x
    change adj x = adjWr next.phase x
    rw [(semop_done hd x).2, hadj, ho.adj x]
  have hws : t.writers = s.writers.set i w' := by rw [ht]; rfl
  have hrs : t.readers = s.readers := by rw [ht]; rfl
  obtain ⟨hacc, hstep, hclean⟩ := h.writerMoved hw hws hrs hphase hrule (hsum .empty)
    (hsum .syncRd) (hsum .syncWr) (hsum .aloneWr) (semop_unchanged hd ho.net_aloneRd)
    (hsum .numProc) (fun _ => hexact) (semop_le_max hd h.le_max)
  exact ⟨hacc, hstep, hclean (hphase' ▸ Option.some_ne_none _)⟩

/-- A writer that fails keeps its phase, except that one that has not begun gives up its place. -/
theorem Accounts.writerFail (hrun : w.task.life = .running) (ht : t = s.setWriter i w.fail) :
    Accounts t v ∧ (t.ctl v = s.ctl v ∨ CtlStep initSlot (s.ctl v) (t.ctl v) .left ∧
      CleanStep (s.ctl v) (t.ctl v) .left) := by
  have hphase : w.phase = some w.pc.phase := Task.phase_running hrun _
  have hexact := h.writers w (List.mem_of_getElem? hw) (Task.live_running hrun)
  have hws : t.writers = s.writers.set i w.fail := by rw [ht]; rfl
  have hrs : t.readers = s.readers := by rw [ht]; rfl
  have hfail : w.fail.phase = some (if w.pc.phase = .start then .ended else w.pc.phase) := rfl
  by_cases hpc : w.pc.phase = .start
  · rw [if_pos hpc] at hfail
    rw [hpc] at hphase
    obtain ⟨hacc, hstep, hclean⟩ : Accounts t v ∧ CtlStep initSlot (s.ctl v) (t.ctl v) .left ∧
        (w.fail.phase ≠ none → CleanStep (s.ctl v) (t.ctl v) .left) :=
      h.writerMoved hw hws hrs hphase (hfail ▸ .giveUp) (Int.add_zero _).symm (Int.add_zero _).symm
        (Int.add_zero _).symm (Int.add_zero _).symm rfl (Int.add_zero _).symm (fun _ => hexact)
        h.le_max
    exact ⟨hacc, .inr ⟨hstep, hclean (hfail ▸ Option.some_ne_none _)⟩⟩
  · rw [if_neg hpc] at hfail
    obtain ⟨hacc, hctl⟩ := h.writerStill hw hws hrs (hfail.trans hphase.symm) (fun _ => hexact)
    exact ⟨hacc, .inl hctl⟩

/-- What the writer does without the semaphores leaves the counters alone. -/
theorem Accounts.writerLocal (hrun : w.task.life = .running) {shmLen : Nat} {shmData : List Byte}
    (hl : WriterLocal s w w' shmLen shmData)
    (ht : t = { s with shmLen := shmLen, shmData := shmData }.setWriter i w') :
    Accounts t v ∧ t.ctl v = s.ctl v := by
  have hexact := h.writers w (List.mem_of_getElem? hw) (Task.live_running hrun)
  obtain ⟨hpc, hadj, hlife, -⟩ := hl.kept
  have hws : t.writers = s.writers.set i w' := by rw [ht]; rfl
  have hrs : t.readers = s.readers := by rw [ht]; rfl
  refine h.writerStill hw hws hrs ?_ (fun _ => ?_)
  · rw [Writer.phase, Writer.phase, Task.phase_running hrun, Task.phase_running (hlife.trans hrun),
      hpc]
  · rw [Writer.Exact, hadj, hpc]
    exact hexact

/-- A writer in front of its `SETVAL` is alone and nobody of its side is connected, so nobody has an
    adjustment of FULL that would be lost. -/
theorem Accounts.clearFull (hphase : w.phase = some .setval) : Accounts (s.clearAll .full) v := by
  have hzero := (connected_of_setval h.acct (State.writer_counts v hw hphase)).1
  refine (h.clearAll (fun w₀ hmem hlive => ?_) fun _ _ _ => rfl).1
  obtain ⟨q, hq, hor⟩ := Task.phase_some (p := w₀.pc.phase) hlive
  obtain ⟨k, hk⟩ := List.mem_iff_getElem?.mp hmem
  have hnot := phase_not_connected hzero (State.writer_counts v hk hq) hor
  change (w₀.pc.phase.connected.toNat : Int) = 0
  rw [hnot]
  rfl

/-- `SETVAL` of FULL: first the adjustments are cleared, then the value is set. -/
theorem Accounts.writerSetval (hrun : w.task.life = .running) (hpc : w.pc = .setvalFull)
    (hw' : w' = { w.clear .full with pc := .syncRead })
    (ht : t = (s.setvalAll v .full 0).setWriter i w') :
    Accounts t (setval v .full 0) ∧
      CtlStep initSlot (s.ctl v) (t.ctl (setval v .full 0)) .left ∧
      CleanStep (s.ctl v) (t.ctl (setval v .full 0)) .left := by
  have hphase : w.phase = some .setval := by
    rw [Writer.phase, Task.phase_running hrun, hpc]
    rfl
  have hphase' : w'.phase = some .post := by
    rw [hw']
    exact Task.phase_running hrun _
  have hclear := h.clearFull hw hphase
  have hget : (s.clearAll .full).writers[i]? = some (w.clear .full) := by
    rw [State.clearAll, List.getElem?_map, hw, Option.map_some]
  have hexact : w'.Exact := by
    have hold : (w.clear .full).task.adj = adjWr w.pc.phase :=
      hclear.writers _ (List.mem_of_getElem? hget) (Task.live_running hrun)
    rw [hpc] at hold
    rw [hw']
    exact hold
  have hrule : Rule initSlot ((s.clearAll .full).ctl v) .left .setval w'.phase 0 0 0 0 0
      (setval v .full 0 .full) := by
    rw [hphase', setval_self]
    exact .setval
  have hws : t.writers = (s.clearAll .full).writers.set i w' := by rw [ht]; rfl
  have hrs : t.readers = (s.clearAll .full).readers := by rw [ht]; rfl
  have hkeep := fun x hx => setval_keep (v := v) (n := 0) (x := x) (s := SEM.full) hx
  obtain ⟨hacc, hstep, hclean⟩ := hclear.writerMoved hget hws hrs hphase hrule
    (hkeep .empty SEM.noConfusion) (hkeep .syncRd SEM.noConfusion) (hkeep .syncWr SEM.noConfusion)
    (hkeep .aloneWr SEM.noConfusion) (setval_of_ne SEM.noConfusion v 0)
    (hkeep .numProc SEM.noConfusion) (fun _ => hexact) (setval_le_max h.le_max (by decide))
  rw [State.ctl_clearAll] at hstep hclean
  exact ⟨hacc, hstep, hclean (hphase' ▸ Option.some_ne_none _)⟩

/-- A writer that exits takes back what it has added. -/
theorem Accounts.writerExit (hlive : w.task.live = true) (hv : s.sems = some v)
    (ht : t = s.exitWriter i w) : t.sems = some (undoExit v w.task.adj) ∧
      Accounts t (undoExit v w.task.adj) ∧
      CtlStep initSlot (s.ctl v) (t.ctl (undoExit v w.task.adj)) .left := by
  obtain ⟨p, hp, hpc⟩ := Task.phase_some (p := w.pc.phase) hlive
  have hadj : w.task.adj = adjWr w.pc.phase := h.writers w (List.mem_of_getElem? hw) hlive
  -- a process that failed at the start has recorded as little as one that has ended
  have hadj' : w.task.adj = adjWr p := by
    rcases hpc with rfl | ⟨hstart, rfl⟩
    · exact hadj
    · rw [hadj, hstart]
      rfl
  obtain ⟨hact, hconn⟩ := active_pos (State.writer_counts v hw hp)
  have halone := h.acct.alone .left
  have hnum := h.acct.numProc_eq .left
  have hstay : ∀ x, w.task.adj x = 0 → undoExit v w.task.adj x = v x :=
    fun x hx => undoExit_of_eq_zero hx (h.le_max x)
  have hz : ∀ x, adjWr p x = 0 → (undoExit v w.task.adj x : Int) = v x + 0 := by
    intro x hx
    rw [hstay x (by rw [hadj', hx]), Int.add_zero]
  have haloneWr :
      (undoExit v w.task.adj .aloneWr : Int) = v .aloneWr + -(p.active.toNat : Int) := by
    have hval : w.task.adj .aloneWr = -(p.active.toNat : Int) := by rw [hadj']; rfl
    rw [undoExit_of_le (by omega) _ (h.le_max _), hval]
    change v .aloneWr = _ at halone
    omega
  have hnumProc : (undoExit v w.task.adj .numProc : Int) =
      v .numProc + -(p.connected.toNat : Int) := by
    have hval : w.task.adj .numProc = -(p.connected.toNat : Int) := by rw [hadj']; rfl
    rw [undoExit_of_le (by omega) _ (h.le_max _), hval]
    change v .numProc = _ at hnum
    omega
  have hslot : undoExit v w.task.adj .full = v .full ∨ p.connected = true := by
    cases hc : p.connected with
    | true => exact .inr rfl
    | false => exact .inl (hstay .full (by rw [hadj', adjWr, hc]; rfl))
  have hws : t.writers = s.writers.set i { w with task := w.task.gone } := by rw [ht]; rfl
  have hrs : t.readers = s.readers := by rw [ht]; rfl
  obtain ⟨hacc, hstep, -⟩ := h.writerMoved hw hws hrs hp (.die p _ (hslot.imp_right .inl))
    (hz .empty rfl) (hz .syncRd rfl) (hz .syncWr rfl) haloneWr
    (hstay .aloneRd (by rw [hadj']; rfl)) hnumProc (fun hl => Bool.noConfusion hl)
    (undoExit_le_max v _)
  refine ⟨?_, hacc, hstep⟩
  rw [ht]
  change s.sems.map _ = _
  rw [hv, Option.map_some]

end Writers

/-! ## The steps of a reader -/

section Readers

variable (h : Accounts s v) (hr : s.readers[j]? = some r)
include h hr

/-- A completed operation of the reader. The last one leaves it inexact for EMPTY, and with it
    `Settled` ends. -/
theorem Accounts.readerSemop (hrun : r.task.life = .running) {ops : List (Sembuf SEM)}
    {next : ReaderPc} {adj : SEM → Int} (ho : ReaderOp r.pc ops next)
    (hd : semop ops v r.task.adj = .done v' adj)
    (hr' : r' = { r with task := { r.task with adj := adj, asleep := false }, pc := next })
    (ht : t = { s with sems := some v' }.setReader j r') :
    Accounts t v' ∧ CtlStep initSlot (s.ctl v) (t.ctl v') .right ∧
      CleanStep (s.ctl v) (t.ctl v') .right := by
  have hsum := fun x => (semop_done hd x).1
  have hphase : r.phase = some r.pc.phase := Task.phase_running hrun _
  have hphase' : r'.phase = some next.phase := by
    rw [hr']
    exact Task.phase_running hrun _
  have hrule := ho.rule hd s.writerPhases s.readerPhases
  rw [← hphase'] at hrule
  obtain ⟨hended, hsetval, hnext⟩ := ho.phases
  have hold := h.readers r (List.mem_of_getElem? hr) (Task.live_running hrun)
  have hstart : ∀ x, x ≠ .empty ∨ next.phase ≠ .ended → r'.task.adj x = adjRd next.phase x := by
    intro x hx
    rw [hr', ho.adj x hx, ← hold x (.inr hended)]
    exact (semop_done hd x).2
  have hpc : r'.pc = next := by rw [hr']
  have hnear : r'.task.live = true → r'.Near ∧ (r.pc.phase ≠ .leaving → r'.Exact) := by
    intro _
    rw [Reader.Near, Reader.Exact, hpc]
    exact ⟨hstart, fun hne => funext fun x => hstart x (.inr (hnext hne))⟩
  have hws : t.writers = s.writers := by rw [ht]; rfl
  have hrs : t.readers = s.readers.set j r' := by rw [ht]; rfl
  obtain ⟨hacc, hstep, hclean⟩ := h.readerMoved hr hws hrs hphase hrule (hsum .full)
    (hsum .syncWr) (hsum .syncRd) (hsum .aloneRd) (semop_unchanged hd ho.net_aloneWr)
    (hsum .numProc) hnear (fun hsv => absurd hsv hsetval) (semop_le_max hd h.le_max)
  exact ⟨hacc, hstep, hclean (hphase' ▸ Option.some_ne_none _)⟩

/-- A failure changes the phase of a reader at its start only; `r'` has gone on its error path,
    whatever it has put out. -/
theorem Accounts.readerFail (hrun : r.task.life = .running) (htask : r'.task = r.task.fail)
    (hpc' : r'.pc = r.pc) (hws : t.writers = s.writers) (hrs : t.readers = s.readers.set j r') :
    Accounts t v ∧ (t.ctl v = s.ctl v ∨ CtlStep initSlot (s.ctl v) (t.ctl v) .right ∧
      CleanStep (s.ctl v) (t.ctl v) .right) := by
  have hphase : r.phase = some r.pc.phase := Task.phase_running hrun _
  have hold := h.readers r (List.mem_of_getElem? hr) (Task.live_running hrun)
  have hfail : r'.phase = some (if r.pc.phase = .start then .ended else r.pc.phase) := by
    rw [Reader.phase, htask, hpc']
    rfl
  have hadj : r'.task.adj = r.task.adj := by rw [htask]; rfl
  by_cases hpc : r.pc.phase = .start
  · have hnear : r'.Near := by
      rw [Reader.Near, hpc', hadj]
      exact hold
    have hexact : r'.Exact := by
      have hne : r.pc.phase ≠ .ended := hpc ▸ Phase.noConfusion
      rw [Reader.Exact, hpc', hadj]
      exact funext fun x => hold x (.inr hne)
    rw [if_pos hpc] at hfail
    rw [hpc] at hphase
    obtain ⟨hacc, hstep, hclean⟩ : Accounts t v ∧ CtlStep initSlot (s.ctl v) (t.ctl v) .right ∧
        (r'.phase ≠ none → CleanStep (s.ctl v) (t.ctl v) .right) :=
      h.readerMoved hr hws hrs hphase (hfail ▸ .giveUp) (Int.add_zero _).symm (Int.add_zero _).symm
        (Int.add_zero _).symm (Int.add_zero _).symm rfl (Int.add_zero _).symm
        (fun _ => ⟨hnear, fun _ => hexact⟩) Phase.noConfusion h.le_max
    exact ⟨hacc, .inr ⟨hstep, hclean (hfail ▸ Option.some_ne_none _)⟩⟩
  · rw [if_neg hpc] at hfail
    have hlive : r'.task.live = r.task.live := by
      rw [htask, Task.live_running hrun]
      rfl
    obtain ⟨hacc, hctl⟩ := h.readerStill hr hws hrs (hfail.trans hphase.symm) (by rw [hpc']) hadj
      hlive
    exact ⟨hacc, .inl hctl⟩

/-- What the reader does without the semaphores leaves the counters alone. -/
theorem Accounts.readerLocal (hrun : r.task.life = .running) (hl : ReaderLocal s r r')
    (ht : t = s.setReader j r') : Accounts t v ∧ t.ctl v = s.ctl v := by
  obtain ⟨hpc, hadj, hlife⟩ := hl.kept
  have hws : t.writers = s.writers := by rw [ht]; rfl
  have hrs : t.readers = s.readers.set j r' := by rw [ht]; rfl
  refine h.readerStill hr hws hrs ?_ hpc hadj ?_
  · rw [Reader.phase, Reader.phase, Task.phase_running hrun, Task.phase_running (hlife.trans hrun),
      hpc]
  · rw [Task.live, Task.live, hlife]

/-- In front of the reader's `SETVAL`; here clearing takes away the second adjustments that readers
    before have left. -/
theorem Accounts.clearEmpty (hphase : r.phase = some .setval) :
    Accounts (s.clearAll .empty) v ∧
      ∀ r ∈ (s.clearAll .empty).readers, r.task.live = true → r.Exact := by
  have hzero := (connected_of_setval h.acct (State.reader_counts v hr hphase)).1
  refine (h.clearAll (fun _ _ _ => rfl) fun r₀ hmem hlive => ?_).imp_right fun hall => hall rfl
  obtain ⟨q, hq, hor⟩ := Task.phase_some (p := r₀.pc.phase) hlive
  obtain ⟨k, hk⟩ := List.mem_iff_getElem?.mp hmem
  have hnot := phase_not_connected hzero (State.reader_counts v hk hq) hor
  change (r₀.pc.phase.connected.toNat : Int) = 0
  rw [hnot]
  rfl

/-- `SETVAL` of EMPTY, after which EMPTY means something. -/
theorem Accounts.readerSetval (hrun : r.task.life = .running) (hpc : r.pc = .setvalEmpty)
    (hr' : r' = { r.clear .empty with pc := .syncWrite })
    (ht : t = (s.setvalAll v .empty 1).setReader j r') :
    Accounts t (setval v .empty 1) ∧
      CtlStep initSlot (s.ctl v) (t.ctl (setval v .empty 1)) .right ∧
      CleanStep (s.ctl v) (t.ctl (setval v .empty 1)) .right := by
  have hphase : r.phase = some .setval := by
    rw [Reader.phase, Task.phase_running hrun, hpc]
    rfl
  have hphase' : r'.phase = some .post := by
    rw [hr']
    exact Task.phase_running hrun _
  obtain ⟨hclear, hall⟩ := h.clearEmpty hr hphase
  have hget : (s.clearAll .empty).readers[j]? = some (r.clear .empty) := by
    rw [State.clearAll, List.getElem?_map, hr, Option.map_some]
  have hexact : r'.Exact := by
    have hold : (r.clear .empty).task.adj = adjRd r.pc.phase :=
      hall _ (List.mem_of_getElem? hget) (Task.live_running hrun)
    rw [hpc] at hold
    rw [hr']
    exact hold
  have hrule : Rule initSlot ((s.clearAll .empty).ctl v) .right .setval r'.phase 0 0 0 0 0
      (setval v .empty 1 .empty) := by
    rw [hphase', setval_self]
    exact .setval
  have hws : t.writers = (s.clearAll .empty).writers := by rw [ht]; rfl
  have hrs : t.readers = (s.clearAll .empty).readers.set j r' := by rw [ht]; rfl
  have hkeep := fun x hx => setval_keep (v := v) (n := 1) (x := x) (s := SEM.empty) hx
  obtain ⟨hacc, hstep, hclean⟩ := hclear.readerMoved hget hws hrs hphase hrule
    (hkeep .full SEM.noConfusion) (hkeep .syncWr SEM.noConfusion) (hkeep .syncRd SEM.noConfusion)
    (hkeep .aloneRd SEM.noConfusion) (setval_of_ne SEM.noConfusion v 1)
    (hkeep .numProc SEM.noConfusion)
    (fun _ => ⟨fun x _ => congrFun hexact x, fun _ => hexact⟩) (fun _ _ => hall)
    (setval_le_max h.le_max (by decide))
  rw [State.ctl_clearAll] at hstep hclean
  exact ⟨hacc, hstep, hclean (hphase' ▸ Option.some_ne_none _)⟩

/-- A reader that exits takes back what it has added. Behind its last operation that is one too many
    for EMPTY; but then EMPTY means nothing (`Settled`), and the slot may be anything. -/
theorem Accounts.readerExit (hlive : r.task.live = true) (hv : s.sems = some v)
    (ht : t = s.exitReader j r) : t.sems = some (undoExit v r.task.adj) ∧
      Accounts t (undoExit v r.task.adj) ∧
      CtlStep initSlot (s.ctl v) (t.ctl (undoExit v r.task.adj)) .right := by
  obtain ⟨p, hp, hpc⟩ := Task.phase_some (p := r.pc.phase) hlive
  have hmem := List.mem_of_getElem? hr
  -- a process that failed at the start has recorded as little as one that has ended
  have hpcp : adjRd r.pc.phase = adjRd p := by
    rcases hpc with rfl | ⟨hstart, rfl⟩
    · rfl
    · rw [hstart]
      rfl
  have hadj : ∀ x, x ≠ .empty → r.task.adj x = adjRd p x := by
    intro x hx
    rw [← hpcp]
    exact h.readers r hmem hlive x (.inl hx)
  obtain ⟨hact, hconn⟩ := active_pos (State.reader_counts v hr hp)
  have halone := h.acct.alone .right
  have hnum := h.acct.numProc_eq .right
  have hstay : ∀ x, r.task.adj x = 0 → undoExit v r.task.adj x = v x :=
    fun x hx => undoExit_of_eq_zero hx (h.le_max x)
  have hz : ∀ x, x ≠ .empty → adjRd p x = 0 → (undoExit v r.task.adj x : Int) = v x + 0 := by
    intro x hne hx
    rw [hstay x ((hadj x hne).trans hx), Int.add_zero]
  have haloneRd :
      (undoExit v r.task.adj .aloneRd : Int) = v .aloneRd + -(p.active.toNat : Int) := by
    have hval : r.task.adj .aloneRd = -(p.active.toNat : Int) := hadj _ SEM.noConfusion
    change v .aloneRd = _ at halone
    rw [undoExit_of_le (by omega) (by omega) (h.le_max _), hval]
  have hnumProc : (undoExit v r.task.adj .numProc : Int) =
      v .numProc + -(p.connected.toNat : Int) := by
    have hval : r.task.adj .numProc = -(p.connected.toNat : Int) := hadj _ SEM.noConfusion
    change v .numProc = _ at hnum
    rw [undoExit_of_le (by omega) (by omega) (h.le_max _), hval]
  have hslot : undoExit v r.task.adj .empty = v .empty ∨ p.connected = true ∨
      (s.ctl v).n .right .post + (s.ctl v).n .right .posted + (s.ctl v).connected .right = 0 := by
    by_cases hset : Settled (s.ctl v)
    · have hexact : r.task.adj .empty = adjRd p .empty := by
        rw [← hpcp]
        exact congrFun (h.cleared hset r hmem hlive) _
      cases hc : p.connected with
      | true => exact .inr (.inl rfl)
      | false => exact .inl (hstay .empty (by rw [hexact, adjRd, hc]; rfl))
    · exact .inr (.inr (Nat.eq_zero_of_not_pos hset))
  have hws : t.writers = s.writers := by rw [ht]; rfl
  have hrs : t.readers = s.readers.set j { r with task := r.task.gone } := by rw [ht]; rfl
  obtain ⟨hacc, hstep, -⟩ := h.readerMoved hr hws hrs hp (.die p _ hslot)
    (hz .full SEM.noConfusion rfl) (hz .syncWr SEM.noConfusion rfl)
    (hz .syncRd SEM.noConfusion rfl) haloneRd
    (hstay .aloneWr (hadj _ SEM.noConfusion)) hnumProc (fun hl => Bool.noConfusion hl)
    (fun _ hne => absurd rfl hne) (undoExit_le_max v _)
  refine ⟨?_, hacc, hstep⟩
  rw [ht]
  change s.sems.map _ = _
  rw [hv, Option.map_some]

end Readers

/-! ## The system

All processes, with the set there or gone.

An event is the step of one process, so the lemmas above cover all of them; with the set gone there
is nothing to keep, and it does not come back (`Steps.gone`). -/

/-- A set that is gone stays gone. -/
theorem Steps.gone {e : Event} (hs : Steps s e t) (hv : s.sems = none) : t.sems = none := by
  have hsome : ∀ {v : SEM → Nat} {P : Prop}, s.sems = some v → P := by
    intro v P hv'
    rw [hv] at hv'
    cases hv'
  cases hs with
  | writerMove _ _ hm =>
    cases hm with
    | semop _ _ hv' => exact hsome hv'
    | setval _ hv' => exact hsome hv'
    | quiet => exact hv
    | fail => exact hv
    | remove => rfl
  | writerErr => exact hv
  | writerExit =>
    change s.sems.map _ = none
    rw [hv, Option.map_none]
  | readerMove _ _ hm =>
    cases hm with
    | semop _ _ hv' => exact hsome hv'
    | setval _ hv' => exact hsome hv'
    | quiet => exact hv
    | fail => exact hv
    | endGone => exact hv
  | readerErr =>
    unfold State.failReader
    split <;> exact hv
  | readerExit =>
    change s.sems.map _ = none
    rw [hv, Option.map_none]

/-- A process that is not dead is there. -/
theorem Task.live_of_ne {k : Task} (h : k.life ≠ .dead) : k.live = true := decide_eq_true h

/-- **One step.** As long as the set is there, the accounts are kept, and the counters stay or
    make a move of the hand-over. -/
theorem Accounts.step {e : Event} (h : Accounts s v) (hv : s.sems = some v) (hs : Steps s e t)
    (hv' : t.sems = some v') : Accounts t v' ∧ Counted (s.ctl v) (t.ctl v') e := by
  cases hs with
  | @writerMove i k w _ hw hrun hm =>
    cases hm with
    | semop ho _ hv₁ hd =>
      obtain rfl := Option.some_inj.mp (hv.symm.trans hv₁)
      obtain rfl := Option.some_inj.mp hv'
      obtain ⟨hacc, hstep, hclean⟩ := h.writerSemop hw hrun ho hd rfl rfl
      exact ⟨hacc, .moved .left hstep (.inl hclean)⟩
    | setval hpc hv₁ =>
      obtain rfl := Option.some_inj.mp (hv.symm.trans hv₁)
      obtain rfl := Option.some_inj.mp hv'
      obtain ⟨hacc, hstep, hclean⟩ := h.writerSetval hw hrun hpc rfl rfl
      exact ⟨hacc, .moved .left hstep (.inl hclean)⟩
    | quiet hl =>
      obtain rfl := Option.some_inj.mp (hv.symm.trans hv')
      obtain ⟨hacc, hctl⟩ := h.writerLocal hw hrun hl rfl
      exact ⟨hacc, .still hctl⟩
    | fail =>
      obtain rfl := Option.some_inj.mp (hv.symm.trans hv')
      obtain ⟨hacc, hctl | ⟨hstep, hclean⟩⟩ := h.writerFail hw hrun rfl
      · exact ⟨hacc, .still hctl⟩
      · exact ⟨hacc, .moved .left hstep (.inl hclean)⟩
    | remove => cases hv'
  | writerErr hw hrun =>
    obtain rfl := Option.some_inj.mp (hv.symm.trans hv')
    obtain ⟨hacc, hctl | ⟨hstep, hclean⟩⟩ := h.writerFail hw hrun rfl
    · exact ⟨hacc, .still hctl⟩
    · exact ⟨hacc, .moved .left hstep (.inl hclean)⟩
  | writerExit hw hlive hor =>
    obtain ⟨hsems, hacc, hstep⟩ := h.writerExit hw (Task.live_of_ne hlive) hv rfl
    obtain rfl := Option.some_inj.mp (hsems.symm.trans hv')
    refine ⟨hacc, .moved .left hstep (.inr ?_)⟩
    rcases hor with ⟨rfl, -⟩ | rfl <;> rfl
  | @readerMove j k r _ hr hrun hm =>
    cases hm with
    | semop ho _ hv₁ hd =>
      obtain rfl := Option.some_inj.mp (hv.symm.trans hv₁)
      obtain rfl := Option.some_inj.mp hv'
      obtain ⟨hacc, hstep, hclean⟩ := h.readerSemop hr hrun ho hd rfl rfl
      exact ⟨hacc, .moved .right hstep (.inl hclean)⟩
    | setval hpc hv₁ =>
      obtain rfl := Option.some_inj.mp (hv.symm.trans hv₁)
      obtain rfl := Option.some_inj.mp hv'
      obtain ⟨hacc, hstep, hclean⟩ := h.readerSetval hr hrun hpc rfl rfl
      exact ⟨hacc, .moved .right hstep (.inl hclean)⟩
    | quiet hl =>
      obtain rfl := Option.some_inj.mp (hv.symm.trans hv')
      obtain ⟨hacc, hctl⟩ := h.readerLocal hr hrun hl rfl
      exact ⟨hacc, .still hctl⟩
    | fail =>
      obtain rfl := Option.some_inj.mp (hv.symm.trans hv')
      have htask : r.fail.task = r.task.fail := rfl
      have hpc : r.fail.pc = r.pc := rfl
      have hws : (s.setReader j r.fail).writers = s.writers := rfl
      have hrs : (s.setReader j r.fail).readers = s.readers.set j r.fail := rfl
      obtain ⟨hacc, hctl | ⟨hstep, hclean⟩⟩ := h.readerFail hr hrun htask hpc hws hrs
      · exact ⟨hacc, .still hctl⟩
      · exact ⟨hacc, .moved .right hstep (.inl hclean)⟩
    | endGone _ hnone =>
      rw [hv] at hnone
      cases hnone
  | @readerErr j k r hr hrun =>
    have hsame : ∃ r', r'.task = r.task.fail ∧ r'.pc = r.pc ∧
        s.failReader j r k = s.setReader j r' := by
      unfold State.failReader
      split
      · exact ⟨{ r.fail with out := r.out ++ (s.outBlock r).take k }, rfl, rfl, rfl⟩
      · exact ⟨r.fail, rfl, rfl, rfl⟩
    obtain ⟨r', htask, hpc, ht⟩ := hsame
    rw [ht] at hv' ⊢
    obtain rfl := Option.some_inj.mp (hv.symm.trans hv')
    obtain ⟨hacc, hctl | ⟨hstep, hclean⟩⟩ :=
      h.readerFail (t := s.setReader j r') hr hrun htask hpc rfl rfl
    · exact ⟨hacc, .still hctl⟩
    · exact ⟨hacc, .moved .right hstep (.inl hclean)⟩
  | readerExit hr hlive hor =>
    obtain ⟨hsems, hacc, hstep⟩ := h.readerExit hr (Task.live_of_ne hlive) hv rfl
    obtain rfl := Option.some_inj.mp (hsems.symm.trans hv')
    refine ⟨hacc, .moved .right hstep (.inr ?_)⟩
    rcases hor with ⟨rfl, -⟩ | rfl <;> rfl

theorem countP_start (files : List (List Byte)) (n len : Nat) (data : List Byte) (ph : Phase) :
    (State.start files n len data).writerPhases.count (some ph) =
        (if ph = .start then files.length else 0) ∧
      (State.start files n len data).readerPhases.count (some ph) =
        (if ph = .start then n else 0) := by
  have hw : (State.start files n len data).writerPhases =
      List.replicate files.length (some .start) := by
    have hconst : Writer.phase ∘ Writer.start = Function.const _ (some Phase.start) := rfl
    simp only [State.writerPhases, State.start, List.map_map]
    rw [hconst, List.map_const]
  have hr : (State.start files n len data).readerPhases = List.replicate n (some .start) := by
    simp only [State.readerPhases, State.start, List.map_replicate]
    rfl
  rw [hw, hr, List.count_replicate, List.count_replicate]
  cases ph <;> exact ⟨rfl, rfl⟩

/-- Nobody is anywhere but at the start. -/
theorem ctl_start_eq_zero (files : List (List Byte)) (n len : Nat) (data : List Byte) (x : Side)
    (ph : Phase) (hph : ph ≠ .start) :
    ((State.start files n len data).ctl fun _ => 0).n x ph = 0 := by
  obtain ⟨hw, hr⟩ := countP_start files n len data ph
  rw [if_neg hph] at hw hr
  cases x with
  | left => exact hw
  | right => exact hr

/-- The set starts with zeros, and nobody has recorded anything. -/
theorem Accounts.start (files : List (List Byte)) (n len : Nat) (data : List Byte) :
    Accounts (State.start files n len data) fun _ => 0 := by
  have hn := ctl_start_eq_zero files n len data
  have hact : ∀ x, ((State.start files n len data).ctl fun _ => 0).active x = 0 ∧
      ((State.start files n len data).ctl fun _ => 0).connected x = 0 := by
    intro x
    simp [Ctl.active, Ctl.connected, hn x]
  refine ⟨⟨fun x => ?_, fun x => ?_, ?_⟩, ?_, ?_, ?_, fun _ => by decide⟩
  · rw [(hact x).1]
    cases x <;> rfl
  · rw [(hact x).1]
    exact Nat.zero_le 1
  · rw [(hact .left).2, (hact .right).2]
    rfl
  · intro w hmem _
    obtain ⟨file, -, rfl⟩ := List.mem_map.mp hmem
    funext x
    cases x <;> rfl
  · intro r hmem _ x _
    obtain rfl := List.eq_of_mem_replicate hmem
    cases x <;> rfl
  · intro hset
    rw [Settled, hn _ _ Phase.noConfusion, hn _ _ Phase.noConfusion, (hact .right).2] at hset
    exact absurd hset (Nat.lt_irrefl 0)

/-! ## Every run

The accounts in terms of processes and not of phases, since this is how they are read. -/

/-- The writer is past its first operation and not past its last. -/
def Writer.alone (w : Writer) : Bool := w.task.live && w.pc.phase.active

/-- The reader is past its first operation and not past its last. -/
def Reader.alone (r : Reader) : Bool := r.task.live && r.pc.phase.active

/-- The writer is past `sync_write` and not past its last operation. -/
def Writer.connected (w : Writer) : Bool := w.task.live && w.pc.phase.connected

/-- The reader is past `sync_read` and not past its last operation. -/
def Reader.connected (r : Reader) : Bool := r.task.live && r.pc.phase.connected

/-- A property of phases that neither end has, of a process: it is there and its place has it. -/
theorem Task.phase_any {f : Phase → Bool} (hs : f .start = false) (he : f .ended = false) (k : Task)
    (p : Phase) : (k.phase p).any f = (k.live && f p) := by
  unfold Task.phase Task.live
  cases hl : k.life with
  | running => rfl
  | failing =>
    by_cases hp : p = .start
    · rw [if_pos hp, hp, hs]
      simp [he]
    · simp [if_neg hp]
  | dead => rfl

/-- The sums of the protocol are counts of processes. -/
theorem countP_phases (s : State) (v : SEM → Nat) :
    (s.ctl v).active .left = s.writers.countP Writer.alone ∧
    (s.ctl v).active .right = s.readers.countP Reader.alone ∧
    (s.ctl v).connected .left = s.writers.countP Writer.connected ∧
    (s.ctl v).connected .right = s.readers.countP Reader.connected := by
  obtain ⟨hwa, hra⟩ := view_active s.writerPhases s.readerPhases v
  obtain ⟨hwc, hrc⟩ := view_connected s.writerPhases s.readerPhases v
  rw [State.writerPhases, List.countP_map] at hwa hwc
  rw [State.readerPhases, List.countP_map] at hra hrc
  have hactive := Task.phase_any (f := Phase.active) rfl rfl
  have hconn := Task.phase_any (f := Phase.connected) rfl rfl
  exact ⟨hwa.trans (congrArg (List.countP · _) (funext fun w => hactive w.task w.pc.phase)),
    hra.trans (congrArg (List.countP · _) (funext fun r => hactive r.task r.pc.phase)),
    hwc.trans (congrArg (List.countP · _) (funext fun w => hconn w.task w.pc.phase)),
    hrc.trans (congrArg (List.countP · _) (funext fun r => hconn r.task r.pc.phase))⟩

section Runs

variable {files : List (List Byte)} {n len : Nat} {data : List Byte} {es : List Event}

/-- The accounts are right for as long as there is a set. -/
def State.Accounted (s : State) : Prop := ∀ v, s.sems = some v → Accounts s v

/-- A step that leaves the set keeps them; where the set goes there is nothing to keep. -/
theorem State.Accounted.step {e : Event} (h : s.Accounted) (hs : Steps s e t) : t.Accounted := by
  intro v' hv'
  cases hv : s.sems with
  | none =>
    rw [hs.gone hv] at hv'
    cases hv'
  | some v => exact ((h v hv).step hv hs hv').1

theorem State.Accounted.start (files : List (List Byte)) (n len : Nat) (data : List Byte) :
    (State.start files n len data).Accounted := by
  intro v hv
  obtain rfl := Option.some_inj.mp hv
  exact Accounts.start files n len data

/-- The accounts are right in every state of every run. -/
theorem accounts_of_run (h : Run State.step Always (State.start files n len data) es s) :
    s.Accounted :=
  h.invariant (.start files n len data) fun _ _ _ hinv _ hst => hinv.step (step_steps hst)

/-- **Connection accounting.** In every state of every run, whoever is killed when, the values of
    ALONE_WR, ALONE_RD and NUM_PROC count processes; a `check_num_proc` that succeeds, whoever calls
    it, finds one connected process on each side. The values are those of the semaphores, the counts
    are of processes that are alive. `SEM_UNDO` keeps them equal over a death: whatever the dead
    process had added is taken back in the same step.

    It follows from the equations of `Accounts`: each counter is the sum of what the live processes
    have added, and what a process has added is a function of its phase. -/
theorem connection_accounts (h : Run State.step Always (State.start files n len data) es s)
    (hv : s.sems = some v) :
    (v .aloneWr = s.writers.countP Writer.alone ∧ v .aloneWr ≤ 1) ∧
    (v .aloneRd = s.readers.countP Reader.alone ∧ v .aloneRd ≤ 1) ∧
    (v .numProc = s.writers.countP Writer.connected + s.readers.countP Reader.connected ∧
      v .numProc ≤ 2) ∧
    ∀ k v' k', s.semop k checkNumProc = .done v' k' →
      s.writers.countP Writer.connected = 1 ∧ s.readers.countP Reader.connected = 1 := by
  have hacc := (accounts_of_run h v hv).acct
  obtain ⟨hwa, hra, hwc, hrc⟩ := countP_phases s v
  have hle := fun x => ((s.ctl v).parts x).1
  have haloneWr : v .aloneWr = (s.ctl v).active .left := hacc.alone .left
  have haloneRd : v .aloneRd = (s.ctl v).active .right := hacc.alone .right
  have hnum : v .numProc = (s.ctl v).connected .left + (s.ctl v).connected .right := hacc.numProc
  have hleft := hacc.le_one .left
  have hright := hacc.le_one .right
  refine ⟨⟨haloneWr.trans hwa, haloneWr ▸ hleft⟩, ⟨haloneRd.trans hra, haloneRd ▸ hright⟩,
    ⟨hwc ▸ hrc ▸ hnum, ?_⟩, fun k v' k' hcheck => ?_⟩
  · have hl := hle .left
    have hr := hle .right
    omega
  · obtain ⟨v₀, adj, hv₀, hd, -⟩ := State.semop_done hcheck
    obtain rfl := Option.some_inj.mp (hv.symm.trans hv₀)
    have htwo : 0 ≤ (v .numProc : Int) + -2 := (semop_done_head hd).2
    have hboth := hacc.both_connected (show 2 ≤ v .numProc by omega)
    exact ⟨hwc.symm.trans (hboth .left), hrc.symm.trans (hboth .right)⟩

/-- A run to the point where writer and reader are connected. -/
def connectRun : List Event :=
  [.writer 0 (.run 0), .writer 0 (.run 0), .writer 0 (.run 0), .writer 0 (.run 0),
    .reader 0 (.run 0), .reader 0 (.run 0), .reader 0 (.run 0), .reader 0 (.run 0),
    .writer 0 (.run 0), .reader 0 (.run 0)]

/-- At the end of that run two are connected, one on each side. -/
theorem connection_accounts_connected : ∃ s v,
    Run State.step Always (State.start [[1]] 1 0 []) connectRun s ∧ s.sems = some v ∧
      v .numProc = 2 ∧ s.writers.countP Writer.connected = 1 ∧
      v .numProc = s.writers.countP Writer.connected + s.readers.countP Reader.connected := by
  have hexec : (exec State.step Always connectRun (State.start [[1]] 1 0 [])).any (fun s =>
      s.sems.any (fun v => v .numProc = 2) && s.writers.countP Writer.connected == 1) = true := by
    decide
  obtain ⟨s, hrun, hp⟩ := Run.exists_of_exec hexec
  obtain ⟨hsome, hone⟩ := Bool.and_eq_true_iff.mp hp
  obtain ⟨v, hv, hnum⟩ := (Option.any_eq_true _ _).mp hsome
  exact ⟨s, v, hrun, hv, of_decide_eq_true hnum, beq_iff_eq.mp hone,
    (connection_accounts hrun hv).2.2.1.1⟩

end Runs

end CompTech.Sharmem
