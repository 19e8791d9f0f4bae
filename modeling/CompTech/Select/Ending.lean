import CompTech.Select.Fidelity

/-!
# How the select loop does not end

The loop over the connections runs to `num_proc - 1`, the loop around it until `i_chld` has
reached `num_proc`. Only the inner loop counts `i_chld` up, once for each connection it visits,
so the outer test never fails: `not_finished`. The `break` at the end of an input skips the test
for a drained buffer, so the connection at the end of its input waits for another `select` to be
counted; at the last one that `select` has nothing to wait for (`Parent.stuck_reachable`). And
what is closed for a finished connection is `fd_wr < 0`, descriptor 0 or 1, never its own
(`closes_other`).

The loop behind frees the buffers and does not count at all: where it is entered it stays
(`cleanUp_eq_none`).

What a step does to the table and to the place in the loop is said once (`Keeps`, `Goes`). From it
follows `Counted` for every run, and from `Counted` all that is said about the outer loop and the
descriptors.
-/

namespace CompTech.Select

/-! ## What should hold -/

namespace Parent

/-- Every connection the loop inspects is at the end of its input with an empty buffer, and it
    waits in `select` with both sets empty and a child still to be counted. -/
structure Stuck (s : Parent) : Prop where
  pc : s.pc = .select
  left : s.iChld < s.conns.length
  drained : ∀ c ∈ s.visited, c.fdRd = -1 ∧ c.full = 0
  noRd : s.askedRd = []
  noWr : s.askedWr = []

/-- Connection `i` is found to be finished: the last block is about to close for it. -/
structure Finishing (s : Parent) (i : Nat) (c : Conn) : Prop where
  pc : s.pc = .ending i
  conn : s.conns[i]? = some c
  turn : i = s.iChld
  fdRd : c.fdRd = -1
  full : c.full = 0

end Parent

/-- What the last block passes to `close`: `close (inf_con[i].fd_wr < 0)`. -/
def Conn.endCloses (c : Conn) : List Int := [if c.fdWr < 0 then 1 else 0]

/-- The loop `for (int i_prnt = 0; i_prnt < num_proc - 1; i_prnt)` from `iPrnt` on; the buffers it
    frees, or `none` when the fuel is used up. A buffer is `NULL` once it is freed, and freeing
    `NULL` frees nothing. -/
def cleanUp (numProc : Nat) : Nat → Nat → List Nat → Option (List Nat)
  | 0, _, _ => none
  | fuel + 1, iPrnt, freed =>
    if iPrnt < numProc - 1 then
      cleanUp numProc fuel iPrnt (if iPrnt ∈ freed then freed else freed ++ [iPrnt])
    else some freed

/-- The end of the relay as it should be, whatever the children send and whenever. -/
structure Ends (table : List Row) : Prop where
  noStuck : ∀ ks s, Lib.Run Parent.step Lib.Always (Parent.start table) ks s → ¬s.Stuck
  /-- a finished connection has its own descriptor closed, once, and no other -/
  closesOwn : ∀ ks s, Lib.Run Parent.step Lib.Always (Parent.start table) ks s →
    ∀ i c, s.Finishing i c → c.endCloses = if c.wrClosed then [] else [c.fdWr]
  freesAll : ∀ ks s, Lib.Run Parent.step Lib.Always (Parent.start table) ks s →
    s.pc = .finished → ∃ fuel, cleanUp table.length fuel 0 [] = some (List.range table.length)

/-! ## What one step can do -/

/-- A descriptor written is kept, or it is dropped. -/
structure Keeps (conns conns' : List Conn) : Prop where
  length : conns'.length = conns.length
  fdWr : ∀ (i : Nat) (c' : Conn), conns'[i]? = some c' →
    ∃ c : Conn, conns[i]? = some c ∧ (c'.fdWr = c.fdWr ∨ c'.fdWr = -1)

namespace Keeps

variable {conns conns' conns'' : List Conn}

theorem refl (conns : List Conn) : Keeps conns conns :=
  ⟨rfl, fun _ c hc => ⟨c, hc, .inl rfl⟩⟩

theorem trans (h : Keeps conns conns') (h' : Keeps conns' conns'') : Keeps conns conns'' := by
  refine ⟨h'.length.trans h.length, fun i c'' hc'' => ?_⟩
  obtain ⟨c', hc', hwr'⟩ := h'.fdWr i c'' hc''
  obtain ⟨c, hc, hwr⟩ := h.fdWr i c' hc'
  refine ⟨c, hc, ?_⟩
  rcases hwr' with hwr' | hwr'
  · rw [hwr']
    exact hwr
  · exact .inr hwr'

theorem closeFd (fd : Int) (conns : List Conn) : Keeps conns (closeFd fd conns) := by
  refine ⟨List.length_map _, fun i c' hc' => ?_⟩
  obtain ⟨c, hc, -, hinfo⟩ := getElem?_closeFd_cases hc'
  exact ⟨c, hc, .inl (congrArg InfoConnect.fdWr hinfo)⟩

theorem modify {f : Conn → Conn} (conns : List Conn) (i : Nat)
    (hf : ∀ c, (f c).fdWr = c.fdWr ∨ (f c).fdWr = -1) : Keeps conns (conns.modify i f) := by
  refine ⟨List.length_modify .., fun j c' hc' => ?_⟩
  obtain ⟨c, hc, ⟨-, rfl⟩ | ⟨-, rfl⟩⟩ := getElem?_modify_cases hc'
  · exact ⟨c', hc, .inl rfl⟩
  · exact ⟨c, hc, hf c⟩

end Keeps

/-- Where a step leads: out of the program, to the next round of the loops, to the next block, or
    past a finished connection. -/
inductive Goes (s t : Parent) : Prop
  | exits (hpc : t.pc = .exited) (hi : t.iChld = s.iChld)
  | round (j : Nat) (hpc : t.pc = t.round j) (hi : t.iChld = s.iChld)
  | writes (i : Nat) (hs : s.pc = .reading i) (hpc : t.pc = .writing i) (hi : t.iChld = s.iChld)
  | ends (i : Nat) (hs : s.pc = .writing i) (hpc : t.pc = .ending i) (hi : t.iChld = s.iChld)
  | counts (j : Nat) (hs : s.pc = .ending s.iChld) (hpc : t.pc = t.round j)
      (hi : t.iChld = s.iChld + 1)

namespace Parent

variable {s t : Parent} {k : Kernel} {i : Nat} {c : Conn}

theorem select_cases (h : s.select k = some t) : Keeps s.conns t.conns ∧ Goes s t := by
  unfold select at h
  split at h
  · cases h
    exact ⟨.refl _, .exits rfl rfl⟩
  · split at h
    · cases h
      exact ⟨.refl _, .round s.iChld rfl rfl⟩
    · cases h

theorem readBlock_cases (hpc : s.pc = .reading i) (h : s.readBlock k i c = some t) :
    Keeps s.conns t.conns ∧ Goes s t := by
  unfold readBlock at h
  split at h
  · split at h
    · cases h
      exact ⟨.refl _, .exits rfl rfl⟩
    · split at h
      · cases h
        exact ⟨.refl _, .exits rfl rfl⟩
      · cases h
        exact ⟨(Keeps.closeFd c.fdRd _).trans (.modify _ i fun _ => .inl rfl), .round _ rfl rfl⟩
      · split at h
        · cases h
          exact ⟨.modify _ i fun c => .inl (c.read_fds _).2, .writes i hpc rfl rfl⟩
        · cases h
  · cases h
    exact ⟨.refl _, .writes i hpc rfl rfl⟩

theorem refused_fdWr (c : Conn) : c.refused.fdWr = c.fdWr := by
  unfold Conn.refused
  simp only [InfoConnect.writeUpdate_eq]

theorem writeBlock_cases (hpc : s.pc = .writing i) (h : s.writeBlock k i c = some t) :
    Keeps s.conns t.conns ∧ Goes s t := by
  unfold writeBlock at h
  split at h
  · split at h
    · cases h
      exact ⟨.refl _, .exits rfl rfl⟩
    · split at h
      · cases h
        exact ⟨.refl _, .exits rfl rfl⟩
      · cases h
        exact ⟨.modify _ i fun c => .inl (refused_fdWr c), .ends i hpc rfl rfl⟩
      · split at h
        · split at h
          · cases h
            exact ⟨(Keeps.closeFd c.fdWr _).trans (.modify _ i fun _ => .inr rfl),
              .round _ rfl rfl⟩
          · cases h
            exact ⟨.modify _ i fun c => .inl (c.wrote_fds _).2, .ends i hpc rfl rfl⟩
        · cases h
  · cases h
    exact ⟨.refl _, .ends i hpc rfl rfl⟩

theorem endBlock_cases (hpc : s.pc = .ending i) (h : s.endBlock k i c = some t) :
    Keeps s.conns t.conns ∧ Goes s t := by
  unfold endBlock at h
  split at h
  · split at h
    · cases h
      exact ⟨.refl _, .exits rfl rfl⟩
    · rename_i hturn
      rw [not_not] at hturn
      split at h
      · cases h
        exact ⟨(Keeps.closeFd _ _).trans (.modify _ i fun _ => .inr rfl),
          .counts (i + 1) (hturn ▸ hpc) rfl rfl⟩
      · cases h
        exact ⟨.refl _, .exits rfl rfl⟩
  · cases h
    exact ⟨.refl _, .round _ rfl rfl⟩

theorem step_cases (h : s.step k = some t) : Keeps s.conns t.conns ∧ Goes s t := by
  unfold step at h
  split at h
  · exact select_cases h
  · rename_i i hpc
    obtain ⟨c, -, hblock⟩ := Option.bind_eq_some_iff.mp h
    exact readBlock_cases hpc hblock
  · rename_i i hpc
    obtain ⟨c, -, hblock⟩ := Option.bind_eq_some_iff.mp h
    exact writeBlock_cases hpc hblock
  · rename_i i hpc
    obtain ⟨c, -, hblock⟩ := Option.bind_eq_some_iff.mp h
    exact endBlock_cases hpc hblock
  · cases h
  · cases h

end Parent

/-! ## What every run does

The counter `i_chld` is at most `num_proc - 1`, since it is only raised for a connection that the
inner loop visits. -/

/-- The counter stays within the inner bound, the loop is not left, and no served connection
    writes what the last block closes. -/
structure Counted (s : Parent) : Prop where
  nonempty : 0 < s.conns.length
  iChld : s.iChld ≤ s.numServed
  served : ∀ i, s.pc = .reading i ∨ s.pc = .writing i ∨ s.pc = .ending i → i < s.numServed
  goes : s.pc ≠ .finished
  std : ∀ i c, i < s.numServed → s.conns[i]? = some c → c.fdWr ≠ 0 ∧ c.fdWr ≠ 1

section

variable {table : List Row} {s t : Parent} {k : Kernel}

/-- The outer loop goes on as long as the counter is within the inner bound. -/
theorem Parent.round_goes {j : Nat} (h : 0 < s.conns.length) (hle : s.iChld ≤ s.numServed) :
    s.round j ≠ .finished := by
  unfold numServed at hle
  unfold Parent.round
  rw [if_pos (show s.iChld < s.conns.length by omega)]
  split <;> exact Pc.noConfusion

/-- Every step keeps the count. Where the loop goes is told by `Goes`, what the table looks like by
    `Keeps`. -/
theorem Counted.step (h : Counted s) (ht : s.step k = some t) : Counted t := by
  obtain ⟨hkeep, hgo⟩ := Parent.step_cases ht
  have hserved : t.numServed = s.numServed := congrArg (· - 1) hkeep.length
  have hsome : 0 < t.conns.length := hkeep.length ▸ h.nonempty
  have hstd : ∀ i c, i < t.numServed → t.conns[i]? = some c → c.fdWr ≠ 0 ∧ c.fdWr ≠ 1 := by
    intro i c' hi hc'
    obtain ⟨c, hc, hwr⟩ := hkeep.fdWr i c' hc'
    have hc_std := h.std i c (hserved ▸ hi) hc
    rcases hwr with hwr | hwr <;> rw [hwr]
    · exact hc_std
    · decide
  have hround : t.iChld ≤ t.numServed → (∃ j, t.pc = t.round j) → Counted t := by
    rintro hle ⟨j, hpc⟩
    exact ⟨hsome, hle, fun i hi => Parent.pc_round (hpc ▸ hi),
      hpc ▸ Parent.round_goes hsome hle, hstd⟩
  cases hgo with
  | exits hpc hi =>
    exact ⟨hsome, by rw [hi, hserved]; exact h.iChld, by simp [hpc], by simp [hpc], hstd⟩
  | round j hpc hi => exact hround (by rw [hi, hserved]; exact h.iChld) ⟨j, hpc⟩
  | writes i hs hpc hi =>
    refine ⟨hsome, by rw [hi, hserved]; exact h.iChld, ?_, by simp [hpc], hstd⟩
    simpa [hpc, hserved] using h.served i (.inl hs)
  | ends i hs hpc hi =>
    refine ⟨hsome, by rw [hi, hserved]; exact h.iChld, ?_, by simp [hpc], hstd⟩
    simpa [hpc, hserved] using h.served i (.inr (.inl hs))
  | counts j hs hpc hi =>
    -- the connection counted is one the inner loop visits
    have hlt := h.served s.iChld (.inr (.inr hs))
    exact hround (by rw [hi, hserved]; exact hlt) ⟨j, hpc⟩

theorem Counted.start (h : table ≠ []) (hok : TableOk table) : Counted (Parent.start table) := by
  have hpos : 0 < table.length := List.length_pos_iff.mpr h
  have hpc : (Parent.start table).pc = .select := if_pos hpos
  refine ⟨by simpa [Parent.start] using hpos, Nat.zero_le _, by simp [hpc], by simp [hpc], ?_⟩
  intro i c hi hc
  simp only [Parent.numServed, Parent.start, List.length_map] at hi hc
  rw [List.getElem?_map, Option.map_eq_some_iff] at hc
  obtain ⟨r, hr, rfl⟩ := hc
  refine hok.std r (List.mem_of_getElem? (i := i) ?_)
  rw [List.dropLast_eq_take, List.getElem?_take, if_pos hi]
  exact hr

theorem Counted.run {ks : List Kernel} (h : table ≠ []) (hok : TableOk table)
    (hr : Lib.Run Parent.step Lib.Always (Parent.start table) ks s) : Counted s :=
  hr.invariant (.start h hok) fun _ _ _ hi _ hst => hi.step hst

/-- The outer loop is never left at its test. -/
theorem not_finished {ks : List Kernel} (h : table ≠ []) (hok : TableOk table)
    (hr : Lib.Run Parent.step Lib.Always (Parent.start table) ks s) : s.pc ≠ .finished :=
  (Counted.run h hok hr).goes

/-- A finished connection has descriptor 0 or 1 closed, and it writes neither. -/
theorem closes_other {ks : List Kernel} {i : Nat} {c : Conn} (h : table ≠ []) (hok : TableOk table)
    (hr : Lib.Run Parent.step Lib.Always (Parent.start table) ks s) (hf : s.Finishing i c) :
    c.endCloses ≠ if c.wrClosed then [] else [c.fdWr] := by
  have hcount := Counted.run h hok hr
  have hstd := hcount.std i c (hcount.served i (.inr (.inr hf.pc))) hf.conn
  unfold Conn.endCloses
  cases c.wrClosed
  · -- still open: descriptor 0 or 1 is closed instead
    rw [if_neg Bool.false_ne_true]
    intro heq
    have hfd := List.singleton_inj.mp heq
    split at hfd
    · exact hstd.2 hfd.symm
    · exact hstd.1 hfd.symm
  · -- closed before: nothing should be closed any more
    rw [if_pos rfl]
    exact List.cons_ne_nil _ _

end

/-! ## A run that waits for good -/

/-- A connection with nothing read yet, nothing to write, and room. -/
structure Conn.Fresh (c : Conn) : Prop where
  fdRd : 0 ≤ c.fdRd
  full : c.full = 0
  empty : 0 < c.empty

theorem Conn.Fresh.congr {c d : Conn} (hf : d.Fresh) (h : c.toInfoConnect = d.toInfoConnect) :
    c.Fresh :=
  ⟨h ▸ hf.fdRd, h ▸ hf.full, h ▸ hf.empty⟩

namespace Parent

/-- Before `select`: connection `j` is at the end of its input and not yet counted, the ones
    behind it are as they were at the start. -/
structure AtEnd (s : Parent) (j : Nat) : Prop where
  pc : s.pc = .select
  iChld : s.iChld = j
  served : j < s.numServed
  ended : ∀ c, s.conns[j]? = some c → c.fdRd = -1 ∧ c.full = 0
  later : ∀ i c, j < i → i < s.numServed → s.conns[i]? = some c → c.Fresh

variable {s t : Parent} {i j : Nat} {c : Conn}

theorem getElem?_of_served (h : i < s.numServed) : ∃ c, s.conns[i]? = some c := by
  unfold numServed at h
  exact ⟨_, List.getElem?_eq_getElem (by omega)⟩

/-- `select` finds the input of connection `i` ready, and nothing else. -/
theorem step_select_ready (hpc : s.pc = .select) (hle : s.iChld ≤ i) (hi : i < s.numServed)
    (hc : s.conns[i]? = some c) (hf : c.Fresh) :
    s.step { idle with readyRd := [c.fdRd] } =
      some { s with fdsRd := [c.fdRd], fdsWr := [], pc := s.round s.iChld } := by
  have hmem : c ∈ s.visited := by
    refine List.mem_of_getElem? (i := i - s.iChld) ?_
    rw [visited, List.getElem?_drop, Nat.add_sub_cancel' hle, List.getElem?_take, if_pos hi, hc]
  -- `select` may only report what it was asked for
  have hasked : c.fdRd ∈ s.askedRd := by
    refine List.mem_map_of_mem (List.mem_filter.mpr ⟨hmem, ?_⟩)
    have hpos := hf.fdRd
    exact decide_eq_true ⟨by omega, hf.empty⟩
  unfold step
  rw [hpc]
  dsimp only
  rw [select, if_neg (by simp [idle]), if_pos]
  · rfl
  · exact ⟨List.cons_subset.mpr ⟨hasked, List.nil_subset _⟩, List.nil_subset _⟩

/-- The end of the input of connection `i`, in its own turn. -/
theorem atEnd_of_reading (hpc : s.pc = .reading i) (hturn : s.iChld = i) (hi : i < s.numServed)
    (hc : s.conns[i]? = some c) (hf : c.Fresh) (hset : c.fdRd ∈ s.fdsRd)
    (hlater : ∀ j d, i < j → j < s.numServed → s.conns[j]? = some d → d.Fresh) :
    ∃ t, s.step { idle with read := some [] } = some t ∧ t.AtEnd i ∧
      t.conns.length = s.conns.length := by
  have hpos := hf.fdRd
  have hreads : s.reads { idle with read := some [] } c = true := by
    unfold reads Kernel.fdIsset
    rw [if_neg (by omega), decide_eq_true hset, decide_eq_true hf.empty]
    rfl
  have hblock : s.step { idle with read := some [] } = some (leave { s with
      conns := (closeFd c.fdRd s.conns).modify i fun c => { c with fdRd := -1 } }) := by
    unfold step
    rw [hpc]
    dsimp only
    rw [hc, Option.bind_some, readBlock, if_pos hreads, if_neg (by omega)]
    rfl
  have hlen : ((closeFd c.fdRd s.conns).modify i fun c => { c with fdRd := -1 }).length =
      s.conns.length := by
    rw [List.length_modify, closeFd, List.length_map]
  refine ⟨_, hblock, ⟨?_, hturn, ?_, ?_, ?_⟩, hlen⟩
  · show round _ _ = .select
    unfold round leave numServed at *
    dsimp only at *
    rw [hlen, if_neg (by omega), if_pos (by omega)]
  · show i < _ - 1
    rw [leave]
    dsimp only
    rw [hlen]
    exact hi
  · intro d hd
    obtain ⟨d', hd', ⟨hne, -⟩ | ⟨-, rfl⟩⟩ := getElem?_modify_cases hd
    · exact absurd rfl hne
    obtain ⟨c', hc', -, hinfo⟩ := getElem?_closeFd_cases hd'
    obtain rfl : c = c' := Option.some.inj (hc.symm.trans hc')
    exact ⟨rfl, (congrArg InfoConnect.full hinfo).trans hf.full⟩
  · intro j d hj hlt hd
    obtain ⟨d', hd', ⟨-, rfl⟩ | ⟨heq, -⟩⟩ := getElem?_modify_cases hd
    · obtain ⟨c', hc', -, hinfo⟩ := getElem?_closeFd_cases hd'
      replace hlt : j < ((closeFd c.fdRd s.conns).modify i _).length - 1 := hlt
      rw [hlen] at hlt
      exact (hlater j c' hj hlt hc').congr hinfo
    · exact absurd heq (Nat.ne_of_gt hj)

/-- A connection at the end of its input, in its own turn: nothing is read or written, and it is
    counted. -/
theorem run_counts (hpc : s.pc = .reading j) (hturn : s.iChld = j) (hc : s.conns[j]? = some c)
    (hrd : c.fdRd = -1) (hfull : c.full = 0) :
    ∃ t, Lib.Run step Lib.Always s [idle, idle, idle] t ∧ t.iChld = j + 1 ∧ t.fdsRd = s.fdsRd ∧
      t.pc = t.round (j + 1) ∧ t.conns.length = s.conns.length ∧
      ∀ i c', j < i → t.conns[i]? = some c' →
        ∃ c : Conn, s.conns[i]? = some c ∧ c'.toInfoConnect = c.toInfoConnect := by
  have hread : s.step idle = some { s with pc := .writing j } := by
    unfold step
    rw [hpc]
    dsimp only
    rw [hc, Option.bind_some, readBlock, if_neg]
    simp [reads, Kernel.fdIsset, hrd, idle]
  have hwrite : Parent.step { s with pc := .writing j } idle =
      some { s with pc := .ending j } := by
    unfold step
    dsimp only
    rw [hc, Option.bind_some, writeBlock, if_neg]
    simp [writes, hfull]
  obtain ⟨t, ht⟩ : ∃ t : Parent, t = { s with
      conns := (closeFd (if c.fdWr < 0 then 1 else 0) s.conns).modify j
        fun c => { c with fdWr := -1 }
      iChld := s.iChld + 1 } := ⟨_, rfl⟩
  have hend : Parent.step { s with pc := .ending j } idle =
      some { t with pc := t.round (j + 1) } := by
    unfold step
    dsimp only
    rw [hc, Option.bind_some, endBlock, if_pos ⟨hrd, hfull⟩, if_neg (not_not.mpr hturn.symm),
      if_pos (show idle.closes = true from rfl), ht]
    rfl
  refine ⟨_, .cons trivial hread (.cons trivial hwrite (.cons trivial hend .nil)), ?_, ?_, rfl,
    ?_, ?_⟩
  · rw [ht, ← hturn]
  · rw [ht]
  · rw [ht]
    exact (List.length_modify ..).trans (List.length_map _)
  · intro i c' hi hc'
    rw [ht] at hc'
    obtain ⟨d, hd, ⟨-, rfl⟩ | ⟨heq, -⟩⟩ := getElem?_modify_cases hc'
    · obtain ⟨c'', hc'', -, hinfo⟩ := getElem?_closeFd_cases hd
      exact ⟨c'', hc'', hinfo⟩
    · exact absurd heq (Nat.ne_of_gt hi)

/-- The chain goes on: the next connection reaches the end of its input in the pass that counts
    the one before it. -/
theorem AtEnd.next (h : s.AtEnd j) (hj : j + 1 < s.numServed) :
    ∃ ks t, Lib.Run step Lib.Always s ks t ∧ t.AtEnd (j + 1) ∧
      t.conns.length = s.conns.length := by
  obtain ⟨c, hc⟩ := getElem?_of_served h.served
  obtain ⟨d, hd⟩ := getElem?_of_served hj
  have hfresh := h.later (j + 1) d (Nat.lt_succ_self j) hj hd
  have hselect := step_select_ready h.pc (by rw [h.iChld]; exact Nat.le_succ j) hj hd hfresh
  -- one pass: `select` for `j + 1`, the three blocks of `j`, the read block of `j + 1`
  obtain ⟨s₁, hs₁⟩ : ∃ s₁ : Parent, s₁ = { s with fdsRd := [d.fdRd], fdsWr := [],
                                                   pc := s.round s.iChld } := ⟨_, rfl⟩
  have hpc₁ : s₁.pc = .reading j := by
    rw [hs₁, h.iChld]
    exact if_pos h.served
  obtain ⟨hrd, hfull⟩ := h.ended c hc
  obtain ⟨s₂, hrun, hturn, hset, hpc₂, hlen, hkeep⟩ :=
    run_counts hpc₁ (by rw [hs₁]; exact h.iChld) (by rw [hs₁]; exact hc) hrd hfull
  have hconns : s₁.conns = s.conns := by rw [hs₁]
  rw [hconns] at hlen hkeep
  have hserved : s₂.numServed = s.numServed := congrArg (· - 1) hlen
  rw [← hserved] at hj
  obtain ⟨d₂, hd₂⟩ := getElem?_of_served hj
  obtain ⟨d', hd', hinfo⟩ := hkeep (j + 1) d₂ (Nat.lt_succ_self j) hd₂
  obtain rfl : d = d' := Option.some.inj (hd.symm.trans hd')
  have hmem : d₂.fdRd ∈ s₂.fdsRd := by
    rw [hset, hs₁, hinfo]
    exact List.mem_singleton_self _
  obtain ⟨t, ht, hend, hlen'⟩ := atEnd_of_reading (hpc₂.trans (if_pos hj)) hturn hj hd₂
    (hfresh.congr hinfo) hmem fun i e hi hlt he => by
      obtain ⟨e', he', hinfo'⟩ := hkeep i e (by omega) he
      exact (h.later i e' (by omega) (hserved ▸ hlt) he').congr hinfo'
  rw [← hs₁] at hselect
  exact ⟨_, t, .cons trivial hselect (hrun.append (.cons trivial ht .nil)), hend,
    hlen'.trans hlen⟩

/-- Once the last connection served is at the end of its input, `select` waits for nothing. -/
theorem AtEnd.stuck (h : s.AtEnd j) (hj : j + 1 = s.numServed) : s.Stuck := by
  obtain ⟨c, hc⟩ := getElem?_of_served h.served
  have hvisited : s.visited = [c] := by
    rw [visited, h.iChld, ← hj, List.take_add_one, hc, List.drop_append_of_le_length,
      List.drop_of_length_le]
    · rfl
    · exact List.length_take_le ..
    · have hlen := h.served
      unfold numServed at hlen
      rw [List.length_take]
      omega
  obtain ⟨hrd, hfull⟩ := h.ended c hc
  have hserved := h.served
  unfold numServed at hserved
  refine ⟨h.pc, by rw [h.iChld]; omega, ?_, ?_, ?_⟩
  · rw [hvisited]
    simpa using ⟨hrd, hfull⟩
  · rw [askedRd, hvisited]
    simp [hrd]
  · rw [askedWr, hvisited]
    simp [hfull]

/-- Every connection the loop serves can be the one at the end of its input. -/
theorem atEnd_reachable {table : List Row} (hok : TableOk table)
    (hrd : ∀ r ∈ table.dropLast, 0 ≤ r.fdRd) {j : Nat} (hj : j < table.length - 1) :
    ∃ ks s, Lib.Run step Lib.Always (Parent.start table) ks s ∧ s.AtEnd j ∧
      s.conns.length = table.length := by
  have hlen : (Parent.start table).conns.length = table.length := List.length_map _
  have hserved : (Parent.start table).numServed = table.length - 1 := congrArg (· - 1) hlen
  have hfresh : ∀ i c, i < (Parent.start table).numServed →
      (Parent.start table).conns[i]? = some c → c.Fresh := by
    intro i c hi hc
    simp only [Parent.start] at hc
    rw [List.getElem?_map, Option.map_eq_some_iff] at hc
    obtain ⟨r, hr, rfl⟩ := hc
    have hmem : r ∈ table.dropLast := by
      refine List.mem_of_getElem? (i := i) ?_
      rw [List.dropLast_eq_take, List.getElem?_take, if_pos (hserved ▸ hi), hr]
    refine ⟨hrd r hmem, rfl, ?_⟩
    show (0 : Int) < r.sizeBuf
    have hsize := (hok.size r hmem).1
    omega
  induction j with
  | zero =>
    -- the first connection has no one before it to be counted
    have hpc : (Parent.start table).pc = .select := if_pos (by omega)
    have hzero : 0 < (Parent.start table).numServed := hserved ▸ hj
    obtain ⟨c, hc⟩ := getElem?_of_served hzero
    have hselect := step_select_ready hpc (Nat.zero_le 0) hzero hc (hfresh 0 c hzero hc)
    obtain ⟨t, ht, hend, hlen'⟩ := atEnd_of_reading
      (s := { Parent.start table with fdsRd := [c.fdRd], fdsWr := [], pc := .reading 0 })
      rfl rfl hzero hc (hfresh 0 c hzero hc) (List.mem_singleton_self _)
      fun i d _ hi hd => hfresh i d hi hd
    rw [round, if_pos (show (Parent.start table).iChld < _ from hzero)] at hselect
    exact ⟨_, t, .cons trivial hselect (.cons trivial ht .nil), hend, hlen'.trans hlen⟩
  | succ j ih =>
    obtain ⟨ks, s, hrun, hend, hlen'⟩ := ih (by omega)
    have hnext : j + 1 < s.numServed := by
      rw [numServed, hlen']
      exact hj
    obtain ⟨ks', t, hrun', hend', hlen''⟩ := hend.next hnext
    exact ⟨ks ++ ks', t, hrun.append hrun', hend', hlen''.trans hlen'⟩

/-- For every number of processes there is a run that waits for good. -/
theorem stuck_reachable {table : List Row} (h : table ≠ []) (hok : TableOk table)
    (hrd : ∀ r ∈ table.dropLast, 0 ≤ r.fdRd) :
    ∃ ks s, Lib.Run step Lib.Always (Parent.start table) ks s ∧ s.Stuck := by
  have hpos : 0 < table.length := List.length_pos_iff.mpr h
  rcases Nat.eq_zero_or_pos (table.length - 1) with hone | hmore
  · -- one process: no connection is served, and the first `select` waits for nothing
    have hnone : (Parent.start table).visited = [] := by
      unfold visited numServed Parent.start
      dsimp only
      rw [List.length_map, hone]
      rfl
    refine ⟨[], _, .nil, if_pos hpos, ?_, ?_, ?_, ?_⟩
    · show 0 < (table.map Conn.start).length
      rw [List.length_map]
      exact hpos
    · simp [hnone]
    · simp [askedRd, hnone]
    · simp [askedWr, hnone]
  · obtain ⟨ks, s, hrun, hend, hlen⟩ := atEnd_reachable hok hrd (Nat.sub_one_lt_of_lt hmore)
    have hlast : table.length - 1 - 1 + 1 = s.numServed := by
      rw [numServed, hlen]
      exact Nat.sub_add_cancel hmore
    exact ⟨ks, s, hrun, hend.stuck hlast⟩

end Parent

/-! ## The loop behind -/

/-- Where it is entered with a buffer to free, it stays at that buffer. -/
theorem cleanUp_eq_none {numProc iPrnt : Nat} (h : iPrnt < numProc - 1) (fuel : Nat)
    (freed : List Nat) : cleanUp numProc fuel iPrnt freed = none := by
  induction fuel generalizing freed with
  | zero => rfl
  | succ fuel ih =>
    rw [cleanUp, if_pos h]
    exact ih _

/-- **The relay does not end as it should, for no number of processes.** Some run waits in `select`
    for nothing. In every run the outer loop is not left at its test, and what is closed for a
    finished connection is not its descriptor; with two processes or more the loop that frees the
    buffers would not end either. The three have nothing to do with one another: the bound of the
    inner loop, the argument of `close`, and a clean-up loop without an increment. -/
theorem relay_never_ends {table : List Row} (h : table ≠ []) (hok : TableOk table)
    (hrd : ∀ r ∈ table.dropLast, 0 ≤ r.fdRd) :
    ¬Ends table ∧
      (∀ ks s, Lib.Run Parent.step Lib.Always (Parent.start table) ks s →
        s.pc ≠ .finished ∧
        ∀ i c, s.Finishing i c → c.endCloses ≠ if c.wrClosed then [] else [c.fdWr]) ∧
      (2 ≤ table.length → ∀ fuel, cleanUp table.length fuel 0 [] = none) := by
  refine ⟨fun hends => ?_, fun ks s hrun => ⟨not_finished h hok hrun, fun i c hf => ?_⟩,
    fun hlen fuel => cleanUp_eq_none (Nat.sub_pos_of_lt hlen) fuel []⟩
  · obtain ⟨ks, s, hrun, hstuck⟩ := Parent.stuck_reachable h hok hrd
    exact hends.noStuck ks s hrun hstuck
  · exact closes_other h hok hrun hf

theorem relay_never_ends_two : ¬Ends twoProcs :=
  (relay_never_ends (List.cons_ne_nil _ _) twoProcs_ok (by decide)).1

/-- One process: no connection is inspected, and the first `select` waits for nothing. -/
theorem relay_waits : ¬ ∀ table : List Row, table ≠ [] → TableOk table →
    (∀ r ∈ table.dropLast, 0 ≤ r.fdRd) → Ends table := by
  intro hall
  have hends := hall [⟨3, 0, 243⟩] (List.cons_ne_nil _ _)
    ⟨by decide, by decide, by decide⟩ (by decide)
  have hnone : (Parent.start [⟨3, 0, 243⟩]).visited = [] := rfl
  refine hends.noStuck [] _ .nil ⟨rfl, Nat.zero_lt_one, ?_, rfl, rfl⟩
  rw [hnone]
  exact List.forall_mem_nil _

end CompTech.Select
