import CompTech.Select.Ending
import CompTech.Select.Wiring

/-!
# The whole chain

All processes of `transfer_data` and the pipes between them, as they are wired (`wiring_eq`): child
0 reads the file and every other child `k` the pipe `fd_from_prnt` of its own, each writes its
`fd__to__prnt`; connection `i` of the parent reads the one of child `i` and writes the other of
child `i + 1`. The parent is the one of `Relay`, and its kernel answers with what is in the pipes.

The calls of the processes come in any order. A pipe holds `capacity` bytes; when an empty one
gives the end of the file is left open. Of a child all that it has read and written is recorded.

As long as the parent's counts fit, every byte of the file is in one place of the chain, and in
order. The pipe of the last child is not served, so what gets through ends there.

`Chain.step` puts the parts together: `childStep` is one call of one child, `parentStep` one step of
the parent, whose `read` and `write` are checked against the pipes (`ReadFits`, `WriteFits`). So
every run here is a run of the parent alone, and what is known of those is used as it stands
(`RelayInv.step`).

The proof goes by conservation. A move of a child and a step of the parent are each brought to one
form, what is taken from one place and put in another (`ChildMove`, `step_history`), and the account
of every place is kept by both (`Conserved.step`). The result is read off the accounts, one hop of
the chain at a time (`put_behind`).
-/

namespace CompTech.Select

/-- The size of the buffer of a child. -/
def BUFF_SIZE : Nat := 4096

/-! ## The children -/

/-- Where a child stands. -/
inductive ChildPc
  -- before `open` and `fcntl`
  | opening
  -- before `read`
  | reading
  -- in `write`, with what is not yet in the pipe
  | writing (pending : List Byte)
  -- done, failed or killed
  | exited
  deriving DecidableEq

/-- A child: all it has read and all it has written. -/
structure Child where
  pc : ChildPc
  -- all that its `read`s gave
  got : List Byte
  -- all that its `write`s put into the pipe
  put : List Byte
  deriving DecidableEq

/-- What a call of a child does. -/
inductive ChildCall
  | opened (ok : Bool)
  -- `none` is an error, 0 the end of the input
  | read (count : Option Nat)
  -- the `write` puts `count` bytes into the pipe
  | put (count : Nat)
  | writeError
  | killed
  deriving DecidableEq

/-- The children, the parent and the pipes; the descriptors are known from the wiring. -/
structure Chain where
  parent : Parent
  -- what child 0 has not read of the file
  rest : List Byte
  -- child `k`; the ones beyond `num_proc` do nothing
  child : Nat → Child
  -- what is in the pipe `fd__to__prnt` of child `k`
  toPrnt : Nat → List Byte
  -- what is in its other pipe
  fromPrnt : Nat → List Byte

/-- One step of the whole: of child `k`, or of the parent. -/
inductive Event
  | child (k : Nat) (call : ChildCall)
  | parent (k : Kernel)

namespace Chain

/-- Nothing has been read. -/
def start (table : List Row) (file : List Byte) : Chain where
  parent := Parent.start table
  rest := file
  child := fun _ => ⟨.opening, [], []⟩
  toPrnt := fun _ => []
  fromPrnt := fun _ => []

/-- What is there to read at `fd_rd` of child `k`. -/
def input (s : Chain) (k : Nat) : List Byte := if k = 0 then s.rest else s.fromPrnt k

/-- What child `k` reads next changes. -/
def setInput (s : Chain) (k : Nat) (bytes : List Byte) : Chain :=
  if k = 0 then { s with rest := bytes }
  else { s with fromPrnt := Function.update s.fromPrnt k bytes }

/-- Child `k` changes. -/
def setChild (s : Chain) (k : Nat) (c : Child) : Chain :=
  { s with child := Function.update s.child k c }

/-- The pipe child `k` writes changes. -/
def setToPrnt (s : Chain) (k : Nat) (bytes : List Byte) : Chain :=
  { s with toPrnt := Function.update s.toPrnt k bytes }

/-- One call of child `k`. A short `write` is an error in the code only once it has returned; here
    the bytes go into the pipe in portions, and the code's one call ends with the last. -/
def childStep (capacity : Nat) (s : Chain) (k : Nat) (call : ChildCall) : Option Chain :=
  let c := s.child k
  match call, c.pc with
  | .killed, .exited => none
  | .killed, _ => some (s.setChild k { c with pc := .exited })
  | .opened ok, .opening => some (s.setChild k { c with pc := if ok then .reading else .exited })
  | .read none, .reading => some (s.setChild k { c with pc := .exited })
  | .read (some count), .reading =>
    -- 0 is the end of the input, and an empty pipe may give it at any time
    if count ≤ min BUFF_SIZE (s.input k).length ∧ (count = 0 → s.input k = []) then
      let buff := (s.input k).take count
      some ((s.setInput k ((s.input k).drop count)).setChild k
        { c with pc := if count = 0 then .exited else .writing buff, got := c.got ++ buff })
    else none
  | .put count, .writing pending =>
    -- `write` waits as long as there is no room
    if 0 < count ∧ count ≤ min (capacity - (s.toPrnt k).length) pending.length then
      some ((s.setToPrnt k (s.toPrnt k ++ pending.take count)).setChild k
        { c with
          pc := if count = pending.length then .reading else .writing (pending.drop count)
          put := c.put ++ pending.take count })
    else none
  | .writeError, .writing _ => some (s.setChild k { c with pc := .exited })
  | _, _ => none

end Chain

/-! ## The parent's calls -/

/-- The bytes of `a` that are those of connection `i`. -/
def bytesAt (a : Option (Nat × List Byte)) (i : Nat) : List Byte :=
  a.elim [] fun p => if p.1 = i then p.2 else []

namespace Parent

/-- The connection whose `read` answers with these bytes. -/
def arrival (s : Parent) (k : Kernel) : Option (Nat × List Byte) :=
  match s.pc with
  | .reading i => s.conns[i]?.bind fun c =>
    if s.reads k c = true ∧ 0 ≤ c.fdRd then k.read.map fun d => (i, d) else none
  | _ => none

/-- The connection whose `write` has taken these bytes. -/
def delivery (s : Parent) (k : Kernel) : Option (Nat × List Byte) :=
  match s.pc with
  | .writing i => s.conns[i]?.bind fun c =>
    if s.writes k c = true ∧ 0 ≤ c.fdWr then
      match k.write with
      | .took n => some (i, (c.buf.drop c.curWrite.toNat).take n)
      | .again | .error => none
    else none
  | _ => none

/-- All that connection `i` has read. -/
def received (s : Parent) (i : Nat) : List Byte := s.conns[i]?.elim [] (·.received)

/-- All that it has written. -/
def sent (s : Parent) (i : Nat) : List Byte := s.conns[i]?.elim [] (·.sent)

end Parent

namespace Chain

/-- What the parent has read was in front of the pipe. -/
def ReadFits (s : Chain) (a : Option (Nat × List Byte)) : Prop :=
  ∀ p ∈ a, p.2 <+: s.toPrnt p.1 ∧ (p.2 = [] → s.toPrnt p.1 = [])

/-- There was room for what it has written. -/
def WriteFits (capacity : Nat) (s : Chain) (a : Option (Nat × List Byte)) : Prop :=
  ∀ p ∈ a, (s.fromPrnt (p.1 + 1)).length + p.2.length ≤ capacity

instance (s : Chain) (a : Option (Nat × List Byte)) : Decidable (s.ReadFits a) :=
  inferInstanceAs (Decidable (∀ p ∈ a, _ ∧ _))

instance (capacity : Nat) (s : Chain) (a : Option (Nat × List Byte)) :
    Decidable (s.WriteFits capacity a) :=
  inferInstanceAs (Decidable (∀ p ∈ a, _))

/-- One step of the parent, with bytes that are there and into pipes that have room. -/
def parentStep (capacity : Nat) (s : Chain) (k : Kernel) : Option Chain := do
  let parent ← s.parent.step k
  let arrival := s.parent.arrival k
  let delivery := s.parent.delivery k
  if s.ReadFits arrival ∧ s.WriteFits capacity delivery then
    some { s with
      parent := parent
      toPrnt := fun i => (s.toPrnt i).drop (bytesAt arrival i).length
      -- connection `i` writes the pipe of child `i + 1`, so nobody writes that of child 0
      fromPrnt := fun i => s.fromPrnt i ++ if i = 0 then [] else bytesAt delivery (i - 1) }
  else none

/-- A child beyond the table makes no step. -/
def step (capacity : Nat) (s : Chain) : Event → Option Chain
  | .child k call => if k < s.parent.conns.length then s.childStep capacity k call else none
  | .parent k => s.parentStep capacity k

/-- The parent's counts fit, as in `relay_faithful`. -/
def CountFits (s : Chain) : Event → Prop
  | .child _ _ => True
  | .parent k => s.parent.CountFits k

instance (s : Chain) : (e : Event) → Decidable (s.CountFits e)
  | .child _ _ => inferInstanceAs (Decidable True)
  | .parent k => inferInstanceAs (Decidable (s.parent.CountFits k))

end Chain

/-! ## What a step of the parent brings and takes -/

namespace Parent

variable {s t : Parent} {k : Kernel} {i j : Nat} {c : Conn}

/-- The two histories of the connections. -/
def history (conns : List Conn) (i : Nat) : List Byte × List Byte :=
  conns[i]?.elim ([], []) fun c => (c.received, c.sent)

theorem history_eq : history s.conns i = (s.received i, s.sent i) := by
  unfold history received sent
  cases s.conns[i]? <;> rfl

/-- `close` adds nothing to them. -/
theorem history_closeFd (fd : Int) (conns : List Conn) (i : Nat) :
    history (closeFd fd conns) i = history conns i := by
  unfold history closeFd
  rw [List.getElem?_map]
  cases conns[i]? with
  | none => rfl
  | some c =>
    show ((if c.fdWr = fd then { c with wrClosed := true } else c).received,
      (if c.fdWr = fd then { c with wrClosed := true } else c).sent) = (c.received, c.sent)
    split <;> rfl

/-- A change of one connection that reads `r` and sends `w`. -/
theorem history_modify {conns : List Conn} {f : Conn → Conn} {r w : List Byte}
    (hc : conns[i]? = some c) (hr : (f c).received = c.received ++ r)
    (hw : (f c).sent = c.sent ++ w) (j : Nat) :
    history (conns.modify i f) j = ((history conns j).1 ++ (if i = j then r else []),
      (history conns j).2 ++ if i = j then w else []) := by
  unfold history
  rw [List.getElem?_modify]
  by_cases hij : i = j
  · subst hij
    rw [hc]
    simp [hr, hw]
  · cases conns[j]? <;> simp [hij]

theorem history_modify_same {conns : List Conn} {f : Conn → Conn}
    (hr : ∀ c, (f c).received = c.received) (hw : ∀ c, (f c).sent = c.sent) (j : Nat) :
    history (conns.modify i f) j = history conns j := by
  unfold history
  rw [List.getElem?_modify]
  by_cases hij : i = j <;> cases conns[j]? <;> simp [hij, hr, hw]

/-- The first block adds what arrives. The cases are those of the block. -/
theorem readBlock_history (hpc : s.pc = .reading i) (hc : s.conns[i]? = some c)
    (h : s.readBlock k i c = some t) (j : Nat) : history t.conns j =
      ((history s.conns j).1 ++ bytesAt (s.arrival k) j, (history s.conns j).2) := by
  have harrival : s.arrival k =
      if s.reads k c = true ∧ 0 ≤ c.fdRd then k.read.map fun d => (i, d) else none := by
    unfold arrival
    rw [hpc]
    show s.conns[i]?.bind _ = _
    rw [hc, Option.bind_some]
  have hnone (ha : s.arrival k = none) : history s.conns j =
      ((history s.conns j).1 ++ bytesAt (s.arrival k) j, (history s.conns j).2) := by
    rw [ha]
    exact Prod.ext (List.append_nil _).symm rfl
  unfold readBlock at h
  split at h
  · rename_i hreads
    split at h
    · rename_i hneg
      cases h
      exact hnone (harrival.trans (if_neg fun hand => absurd hand.2 (not_le.mpr hneg)))
    · rename_i hpos
      have hread := harrival.trans (if_pos ⟨hreads, not_lt.mp hpos⟩)
      split at h
      · rename_i hk
        cases h
        exact hnone (hread.trans (by rw [hk]; rfl))
      · rename_i hk
        cases h
        show history ((closeFd c.fdRd s.conns).modify i _) j = _
        rw [history_modify_same (f := fun c => { c with fdRd := -1 }) (fun _ => rfl)
          (fun _ => rfl), history_closeFd, hread, hk]
        refine Prod.ext ?_ rfl
        show _ = _ ++ if i = j then [] else []
        rw [ite_self, List.append_nil]
      · rename_i d _ hk
        split at h
        · cases h
          have hmod := history_modify (f := fun c => c.read d) (r := d) (w := []) hc rfl
            (List.append_nil _).symm j
          rw [hread, hk]
          refine hmod.trans (Prod.ext rfl ?_)
          rw [ite_self, List.append_nil]
        · cases h
  · rename_i hreads
    cases h
    exact hnone (harrival.trans (if_neg fun hand => absurd hand.1 hreads))

/-- The second block adds what is delivered. -/
theorem writeBlock_history (hpc : s.pc = .writing i) (hc : s.conns[i]? = some c)
    (h : s.writeBlock k i c = some t) (j : Nat) : history t.conns j =
      ((history s.conns j).1, (history s.conns j).2 ++ bytesAt (s.delivery k) j) := by
  have hdelivery : s.delivery k =
      if s.writes k c = true ∧ 0 ≤ c.fdWr then
        match k.write with
        | .took n => some (i, (c.buf.drop c.curWrite.toNat).take n)
        | .again | .error => none
      else none := by
    unfold delivery
    rw [hpc]
    show s.conns[i]?.bind _ = _
    rw [hc, Option.bind_some]
  have hnone (hd : s.delivery k = none) : history s.conns j =
      ((history s.conns j).1, (history s.conns j).2 ++ bytesAt (s.delivery k) j) := by
    rw [hd]
    exact Prod.ext rfl (List.append_nil _).symm
  unfold writeBlock at h
  split at h
  · rename_i hwrites
    split at h
    · rename_i hneg
      cases h
      exact hnone (hdelivery.trans (if_neg fun hand => absurd hand.2 (not_le.mpr hneg)))
    · rename_i hpos
      have hwrite := hdelivery.trans (if_pos ⟨hwrites, not_lt.mp hpos⟩)
      split at h
      · rename_i hk
        cases h
        exact hnone (hwrite.trans (by rw [hk]))
      · rename_i hk
        cases h
        refine Eq.trans ?_ (hnone (hwrite.trans (by rw [hk])))
        exact history_modify_same (f := Conn.refused) (fun _ => rfl) (fun _ => rfl) j
      · rename_i n hk
        rw [hk] at hwrite
        split at h
        · split at h
          · -- nothing is taken, and the descriptor is closed
            rename_i hzero
            cases h
            show history ((closeFd c.fdWr s.conns).modify i _) j = _
            rw [history_modify_same (f := fun c => { c with fdWr := -1 }) (fun _ => rfl)
              (fun _ => rfl), history_closeFd, hwrite]
            refine Prod.ext rfl ?_
            show _ = _ ++ if i = j then (c.buf.drop c.curWrite.toNat).take n else []
            rw [hzero, List.take_zero, ite_self, List.append_nil]
          · cases h
            have hmod := history_modify (f := fun c => c.wrote n) (r := [])
              (w := (c.buf.drop c.curWrite.toNat).take n) hc (List.append_nil _).symm rfl j
            rw [hwrite]
            refine hmod.trans (Prod.ext ?_ rfl)
            rw [ite_self, List.append_nil]
        · cases h
  · rename_i hwrites
    cases h
    exact hnone (hdelivery.trans (if_neg fun hand => absurd hand.1 hwrites))

/-- The last block adds nothing. -/
theorem endBlock_history (h : s.endBlock k i c = some t) (j : Nat) :
    history t.conns j = history s.conns j := by
  unfold endBlock at h
  split at h
  · split at h
    · cases h
      rfl
    · split at h
      · cases h
        show history ((closeFd _ s.conns).modify i _) j = _
        rw [history_modify_same (f := fun c => { c with fdWr := -1 }) (fun _ => rfl)
          (fun _ => rfl), history_closeFd]
      · cases h
        rfl
  · cases h
    rfl

/-- The histories grow by what arrives and by what is delivered. -/
theorem step_history (h : s.step k = some t) (j : Nat) :
    t.received j = s.received j ++ bytesAt (s.arrival k) j ∧
      t.sent j = s.sent j ++ bytesAt (s.delivery k) j := by
  have hjoin {a d : Option (Nat × List Byte)} (ha : s.arrival k = a) (hd : s.delivery k = d)
      (hh : history t.conns j =
        ((history s.conns j).1 ++ bytesAt a j, (history s.conns j).2 ++ bytesAt d j)) :
      t.received j = s.received j ++ bytesAt (s.arrival k) j ∧
        t.sent j = s.sent j ++ bytesAt (s.delivery k) j := by
    rw [history_eq, history_eq] at hh
    rw [ha, hd]
    exact Prod.mk.inj hh
  have hsame (ha : s.arrival k = none) (hd : s.delivery k = none)
      (hh : history t.conns j = history s.conns j) :
      t.received j = s.received j ++ bytesAt (s.arrival k) j ∧
        t.sent j = s.sent j ++ bytesAt (s.delivery k) j :=
    hjoin ha hd (hh.trans (Prod.ext (List.append_nil _).symm (List.append_nil _).symm))
  unfold step at h
  split at h
  · rename_i hpc
    refine hsame (by unfold arrival; rw [hpc]) (by unfold delivery; rw [hpc]) ?_
    unfold select at h
    split at h
    · cases h
      rfl
    · split at h <;> cases h
      rfl
  · rename_i i hpc
    obtain ⟨c, hc, hblock⟩ := Option.bind_eq_some_iff.mp h
    refine hjoin rfl (by unfold delivery; rw [hpc]) ((readBlock_history hpc hc hblock j).trans ?_)
    exact Prod.ext rfl (List.append_nil _).symm
  · rename_i i hpc
    obtain ⟨c, hc, hblock⟩ := Option.bind_eq_some_iff.mp h
    refine hjoin (by unfold arrival; rw [hpc]) rfl ((writeBlock_history hpc hc hblock j).trans ?_)
    exact Prod.ext (List.append_nil _).symm rfl
  · rename_i i hpc
    obtain ⟨c, hc, hblock⟩ := Option.bind_eq_some_iff.mp h
    exact hsame (by unfold arrival; rw [hpc]) (by unfold delivery; rw [hpc])
      (endBlock_history hblock j)
  · cases h
  · cases h

/-- Only a served connection reads. -/
theorem arrival_lt (hs : RelayInv s) {p : Nat × List Byte} (hp : s.arrival k = some p) :
    p.1 < s.numServed := by
  unfold arrival at hp
  split at hp
  · rename_i i hpc
    obtain ⟨c, -, hif⟩ := Option.bind_eq_some_iff.mp hp
    split at hif
    · obtain ⟨d, -, rfl⟩ := Option.map_eq_some_iff.mp hif
      exact hs.pc i (.inl hpc)
    · cases hif
  · cases hp

end Parent

/-! ## What a step of a child does -/

/-- Everything written had been read, and in `write` the rest of it is pending. -/
structure Child.WritesWhatItRead (c : Child) : Prop where
  order : c.put <+: c.got
  /-- outside `write` nothing is owed -/
  settled : c.pc = .opening ∨ c.pc = .reading → c.got = c.put
  pending : ∀ p, c.pc = .writing p → c.got = c.put ++ p

namespace Chain

variable {capacity k n : Nat} {s t : Chain} {file : List Byte}

@[simp] theorem setInput_parent (b : List Byte) : (s.setInput k b).parent = s.parent := by
  unfold setInput
  split <;> rfl

@[simp] theorem setInput_child (b : List Byte) : (s.setInput k b).child = s.child := by
  unfold setInput
  split <;> rfl

@[simp] theorem setInput_toPrnt (b : List Byte) : (s.setInput k b).toPrnt = s.toPrnt := by
  unfold setInput
  split <;> rfl

theorem input_setInput (b : List Byte) (j : Nat) :
    (s.setInput k b).input j = if j = k then b else s.input j := by
  unfold input setInput
  by_cases hj : j = 0
  · by_cases hk : k = 0 <;> simp [hj, hk, eq_comm]
  · by_cases hk : k = 0
    · simp [hj, hk]
    · simp [hj, hk, Function.update_apply]

/-- Child `k` reads `d` and writes `w`. -/
structure ChildMove (capacity : Nat) (s : Chain) (k : Nat) (t : Chain) (d w : List Byte) :
    Prop where
  /-- the parent is not concerned -/
  parent : t.parent = s.parent
  /-- nor are the other children and their pipes -/
  others : ∀ j, j ≠ k → t.child j = s.child j ∧ t.input j = s.input j ∧ t.toPrnt j = s.toPrnt j
  /-- what it has read is counted -/
  got : (t.child k).got = (s.child k).got ++ d
  /-- and what it has written -/
  put : (t.child k).put = (s.child k).put ++ w
  /-- what it read was in front of its input -/
  input : s.input k = d ++ t.input k
  /-- what it wrote is at the end of its pipe -/
  toPrnt : t.toPrnt k = s.toPrnt k ++ w
  /-- the pipe does not overflow -/
  room : (s.toPrnt k).length ≤ capacity → (t.toPrnt k).length ≤ capacity
  writes : (s.child k).WritesWhatItRead → (t.child k).WritesWhatItRead

/-- It only goes on, or ends. -/
theorem ChildMove.passes {pc : ChildPc} (hopened : pc = .exited ∨
    pc = .reading ∧ (s.child k).pc = .opening) :
    ChildMove capacity s k (s.setChild k { s.child k with pc := pc }) [] [] where
  parent := rfl
  others j hj := ⟨Function.update_of_ne hj _ _, rfl, rfl⟩
  got := by simp [setChild]
  put := by simp [setChild]
  input := rfl
  toPrnt := (List.append_nil _).symm
  room h := h
  writes h := by
    simp only [setChild, Function.update_self]
    refine ⟨h.order, fun hpc => ?_, fun p hpc => ?_⟩
    · rcases hopened with rfl | ⟨rfl, hopening⟩
      · rcases hpc with hpc | hpc <;> cases hpc
      · exact h.settled (.inl hopening)
    · rcases hopened with rfl | ⟨rfl, -⟩ <;> cases hpc

/-- Every call of a child is such a move. -/
theorem childStep_move {call : ChildCall} (h : s.childStep capacity k call = some t) :
    ∃ d w, ChildMove capacity s k t d w := by
  unfold childStep at h
  dsimp only at h
  split at h
  · cases h
  · cases h
    exact ⟨[], [], .passes (.inl rfl)⟩
  · rename_i ok hpc
    cases h
    refine ⟨[], [], .passes ?_⟩
    cases ok with
    | true => exact .inr ⟨rfl, hpc⟩
    | false => exact .inl rfl
  · cases h
    exact ⟨[], [], .passes (.inl rfl)⟩
  · rename_i count hpc
    split at h
    · rename_i hcount
      cases h
      refine ⟨(s.input k).take count, [], ?_⟩
      refine ⟨by simp [setChild], fun j hj => ⟨?_, ?_, by simp [setChild]⟩, by simp [setChild],
        by simp [setChild], ?_, by simp [setChild], by simp [setChild], fun hf => ?_⟩
      · simp [setChild, Function.update_of_ne hj]
      · exact (input_setInput _ j).trans (if_neg hj)
      · have hin (c : Child) : ((s.setInput k ((s.input k).drop count)).setChild k c).input k =
            (s.input k).drop count := (input_setInput _ k).trans (if_pos rfl)
        rw [hin, List.take_append_drop]
      · have hsettled := hf.settled (.inr hpc)
        simp only [setChild, Function.update_self]
        refine ⟨hf.order.trans (List.prefix_append _ _), fun hp => ?_, fun p hp => ?_⟩
        · split at hp <;> rcases hp with hp | hp <;> cases hp
        · split at hp <;> cases hp
          rw [hsettled]
    · cases h
  · rename_i count pending hpc
    split at h
    · rename_i hcount
      cases h
      refine ⟨[], pending.take count, ?_⟩
      refine ⟨rfl, fun j hj => ⟨?_, rfl, ?_⟩, by simp [setChild], by simp [setChild], rfl,
        by simp [setChild, setToPrnt], fun hroom => ?_, fun hf => ?_⟩
      · simp [setChild, setToPrnt, Function.update_of_ne hj]
      · simp [setChild, setToPrnt, Function.update_of_ne hj]
      · simp only [setChild, setToPrnt, Function.update_self, List.length_append, List.length_take]
        omega
      · have hpending := hf.pending pending hpc
        simp only [setChild, setToPrnt, Function.update_self]
        have hsplit : (s.child k).got = (s.child k).put ++ pending.take count ++
            pending.drop count := by
          rw [hpending, List.append_assoc, List.take_append_drop]
        refine ⟨⟨_, hsplit.symm⟩, fun hp => ?_, fun p hp => ?_⟩
        · split at hp
          · rename_i hall
            rw [hsplit, List.drop_eq_nil_of_le (Nat.le_of_eq hall.symm), List.append_nil]
          · rcases hp with hp | hp <;> cases hp
        · split at hp <;> cases hp
          exact hsplit
    · cases h
  · cases h
    exact ⟨[], [], .passes (.inl rfl)⟩
  · cases h

/-! ## Where the bytes are -/

/-- All that has been put in front of child `k`. -/
def fed (file : List Byte) (s : Chain) : Nat → List Byte
  | 0 => file
  | k + 1 => s.parent.sent k

/-- The account of every place of the chain. -/
structure Conserved (capacity n : Nat) (file : List Byte) (s : Chain) : Prop where
  /-- the parent's own invariant -/
  relay : RelayInv s.parent
  /-- the table does not grow -/
  count : s.parent.conns.length = n
  own : ∀ k, (s.child k).WritesWhatItRead
  /-- what was put in front of a child it has read, or it is still there -/
  down : ∀ k, s.fed file k = (s.child k).got ++ s.input k
  /-- what a child has written the parent has read, or it is still there -/
  up : ∀ k, (s.child k).put = s.parent.received k ++ s.toPrnt k
  /-- the last child's pipe is not read -/
  unread : ∀ k, s.parent.numServed ≤ k → s.parent.received k = []
  /-- no pipe overflows -/
  room : ∀ k, (s.toPrnt k).length ≤ capacity

/-- It holds at the start, with the whole file in front of child 0. -/
theorem Conserved.start {table : List Row} (h : TableOk table) (capacity : Nat) (file : List Byte) :
    (Chain.start table file).Conserved capacity table.length file := by
  have hhistory (k : Nat) : (Parent.start table).received k = [] ∧
      (Parent.start table).sent k = [] := by
    unfold Parent.received Parent.sent Parent.start
    simp only [List.getElem?_map]
    cases table[k]? <;> exact ⟨rfl, rfl⟩
  refine ⟨.start h, List.length_map _, fun _ => ⟨List.nil_prefix, fun _ => rfl, fun p hp => ?_⟩,
    fun k => ?_, fun k => ((List.append_nil _).trans (hhistory k).1).symm,
    fun k _ => (hhistory k).1, fun _ => Nat.zero_le _⟩
  · cases hp
  · cases k with
    | zero => rfl
    | succ k => exact (hhistory k).2

/-- A move of a child keeps it. -/
theorem Conserved.childMove {d w : List Byte} (h : s.Conserved capacity n file)
    (hm : ChildMove capacity s k t d w) : t.Conserved capacity n file := by
  have hfed (j : Nat) : t.fed file j = s.fed file j := by
    cases j with
    | zero => rfl
    | succ j => exact congrArg (Parent.sent · j) hm.parent
  refine ⟨hm.parent ▸ h.relay, hm.parent ▸ h.count, fun j => ?_, fun j => ?_, fun j => ?_,
    hm.parent ▸ h.unread, fun j => ?_⟩
  all_goals by_cases hj : j = k
  · subst hj
    exact hm.writes (h.own j)
  · exact (hm.others j hj).1 ▸ h.own j
  · subst hj
    rw [hfed, h.down, hm.input, hm.got, List.append_assoc]
  · rw [hfed, h.down, (hm.others j hj).1, (hm.others j hj).2.1]
  · subst hj
    rw [hm.put, h.up, hm.parent, hm.toPrnt, List.append_assoc]
  · rw [(hm.others j hj).1, h.up, hm.parent, (hm.others j hj).2.2]
  · subst hj
    exact hm.room (h.room j)
  · exact (hm.others j hj).2.2 ▸ h.room j

/-- What a connection takes was in front of its pipe. -/
theorem bytesAt_prefix {a : Option (Nat × List Byte)} (h : s.ReadFits a) (j : Nat) :
    bytesAt a j <+: s.toPrnt j := by
  cases a with
  | none => exact List.nil_prefix
  | some p =>
    show (if p.1 = j then p.2 else []) <+: _
    split
    · rename_i hp
      exact hp ▸ (h p rfl).1
    · exact List.nil_prefix

/-- A step of the parent keeps it, as long as its counts fit. -/
theorem Conserved.parentStep {e : Kernel} (h : s.Conserved capacity n file)
    (hfit : s.parent.CountFits e) (hst : s.parentStep capacity e = some t) :
    t.Conserved capacity n file ∧ t.child = s.child := by
  obtain ⟨parent, hparent, hif⟩ := Option.bind_eq_some_iff.mp hst
  dsimp only at hif
  split at hif
  · rename_i hfits
    cases hif
    have hhist := Parent.step_history hparent
    have hlen : parent.conns.length = s.parent.conns.length := (Parent.step_cases hparent).1.length
    have hserved : parent.numServed = s.parent.numServed := congrArg (· - 1) hlen
    refine ⟨⟨h.relay.step hfit hparent, hlen.trans h.count, h.own, fun j => ?_, fun j => ?_,
      fun j hj => ?_, fun j => ?_⟩, rfl⟩
    · cases j with
      | zero =>
        exact h.down 0
      | succ j =>
        show parent.sent j = (s.child (j + 1)).got ++ (s.fromPrnt (j + 1) ++ _)
        have hdown : s.parent.sent j = (s.child (j + 1)).got ++ s.fromPrnt (j + 1) := h.down (j + 1)
        rw [(hhist j).2, hdown, List.append_assoc]
        rfl
    · show (s.child j).put = parent.received j ++ _
      obtain ⟨rest, hrest⟩ := bytesAt_prefix hfits.1 j
      rw [(hhist j).1, h.up, List.append_assoc]
      refine congrArg (s.parent.received j ++ ·) ?_
      show s.toPrnt j = _ ++ (s.toPrnt j).drop _
      rw [← hrest, List.drop_left]
    · show parent.received j = []
      rw [hserved] at hj
      rw [(hhist j).1, h.unread j hj, List.nil_append]
      cases harrival : s.parent.arrival e with
      | none => rfl
      | some p =>
        have hlt := Parent.arrival_lt h.relay harrival
        exact if_neg fun hp => absurd (hp ▸ hlt) (not_lt.mpr hj)
    · show ((s.toPrnt j).drop _).length ≤ capacity
      rw [List.length_drop]
      exact (Nat.sub_le _ _).trans (h.room j)
  · cases hif

/-- **One step.** No process takes back what it has written. -/
theorem Conserved.step {e : Event} (h : s.Conserved capacity n file) (hfit : s.CountFits e)
    (hst : Chain.step capacity s e = some t) :
    t.Conserved capacity n file ∧ ∀ k, (s.child k).put <+: (t.child k).put := by
  cases e with
  | child k call =>
    simp only [Chain.step] at hst
    split at hst
    · obtain ⟨d, w, hm⟩ := childStep_move hst
      refine ⟨h.childMove hm, fun j => ?_⟩
      by_cases hj : j = k
      · subst hj
        rw [hm.put]
        exact List.prefix_append _ _
      · rw [(hm.others j hj).1]
    · cases hst
  | parent e =>
    obtain ⟨ht, hchild⟩ := h.parentStep hfit hst
    exact ⟨ht, fun k => by rw [hchild]⟩

/-! ## The whole line -/

/-- What a child has written stays written. -/
theorem Conserved.put_prefix {es : List Event} (h : s.Conserved capacity n file)
    (hr : Lib.Run (Chain.step capacity) CountFits s es t) (k : Nat) :
    (s.child k).put <+: (t.child k).put :=
  hr.rel (R := fun a b : Chain => (a.child k).put <+: (b.child k).put)
    (fun _ => List.prefix_rfl) (fun _ _ _ => List.IsPrefix.trans) h
    fun _ _ _ h hfit hst => ⟨(h.step hfit hst).1, (h.step hfit hst).2 k⟩

/-- What a child has read and not written. -/
def held (c : Child) : List Byte := c.got.drop c.put.length

/-- What connection `i` has read and not handed on. -/
def unsent (s : Parent) (i : Nat) : List Byte := (s.received i).drop (s.sent i).length

/-- What lies behind the pipe of child `k`, back to the file. -/
def behind (s : Chain) : Nat → List Byte
  | 0 => held (s.child 0) ++ s.rest
  | k + 1 => held (s.child (k + 1)) ++ s.fromPrnt (k + 1) ++ unsent s.parent k ++ s.toPrnt k ++
      s.behind k

/-- The ring of a connection has these bytes, and so has the buffer of a child in `write`. -/
structure Stored (s : Chain) : Prop where
  /-- the buffer of a served connection holds what it has not handed on -/
  ring : ∀ i c, i < s.parent.numServed → s.parent.conns[i]? = some c →
    c.Holds (unsent s.parent i)
  /-- a child in `write` holds what it has not written -/
  pending : ∀ k p, (s.child k).pc = .writing p → held (s.child k) = p
  /-- other running children hold nothing -/
  settled : ∀ k, (s.child k).pc = .opening ∨ (s.child k).pc = .reading → held (s.child k) = []

/-- What a child has read is what it has written and what it holds. -/
theorem put_held (h : s.Conserved capacity n file) (k : Nat) :
    (s.child k).put ++ held (s.child k) = (s.child k).got := by
  obtain ⟨rest, hrest⟩ := (h.own k).order
  rw [held, ← hrest, List.drop_left]

/-- The queue of a served connection is what it has not handed on. -/
theorem Conserved.queue {i : Nat} {c : Conn} (h : s.Conserved capacity n file)
    (hi : i < s.parent.numServed) (hc : s.parent.conns[i]? = some c) :
    s.parent.sent i ++ unsent s.parent i = s.parent.received i ∧ c.Holds (unsent s.parent i) := by
  obtain ⟨q, hq, hholds⟩ := (h.relay.table.conn i c hi hc).queue
  have hsent : s.parent.sent i = c.sent := by
    rw [Parent.sent, hc]
    rfl
  have hreceived : s.parent.received i = c.sent ++ q := by
    rw [Parent.received, hc]
    exact hq
  have hunsent : unsent s.parent i = q := by rw [unsent, hsent, hreceived, List.drop_left]
  exact ⟨by rw [hunsent, hsent, hreceived], hunsent ▸ hholds⟩

theorem Conserved.stored (h : s.Conserved capacity n file) : s.Stored where
  ring _ _ hi hc := (h.queue hi hc).2
  pending k p hpc := by rw [held, (h.own k).pending p hpc, List.drop_left]
  settled k hpc := by rw [held, (h.own k).settled hpc, List.drop_length]

/-- Hop by hop. Induction on the number of the child. -/
theorem put_behind (h : s.Conserved capacity n file) :
    ∀ k < n, (s.child k).put ++ s.behind k = file := by
  intro k
  induction k with
  | zero =>
    intro _
    have hdown : file = (s.child 0).got ++ s.rest := h.down 0
    rw [behind, ← List.append_assoc, put_held h, ← hdown]
  | succ k ih =>
    intro hk
    have hdown : s.parent.sent k = (s.child (k + 1)).got ++ s.fromPrnt (k + 1) := h.down (k + 1)
    have hserved : k < s.parent.numServed := by
      rw [Parent.numServed, h.count]
      omega
    have hlt : k < s.parent.conns.length := Nat.lt_of_lt_of_le hserved (Nat.sub_le _ _)
    have hqueue := (h.queue hserved (List.getElem?_eq_getElem hlt)).1
    calc (s.child (k + 1)).put ++ s.behind (k + 1)
        = (s.child (k + 1)).put ++ held (s.child (k + 1)) ++ s.fromPrnt (k + 1) ++
            unsent s.parent k ++ s.toPrnt k ++ s.behind k := by
          simp only [behind, List.append_assoc]
      _ = s.parent.sent k ++ unsent s.parent k ++ s.toPrnt k ++ s.behind k := by
          rw [put_held h, hdown]
      _ = (s.child k).put ++ s.behind k := by rw [hqueue, h.up]
      _ = file := ih (Nat.lt_of_succ_lt hk)

/-- The pipe of the last child is not served. -/
theorem put_last (h : s.Conserved capacity n file) : (s.child (n - 1)).put = s.toPrnt (n - 1) := by
  have hunread : s.parent.received (n - 1) = [] :=
    h.unread _ (Nat.le_of_eq (congrArg (· - 1) h.count))
  rw [h.up, hunread, List.nil_append]

/-- **Every byte of the file is in one place.** In every run of the children and the parent,
    whatever fails or is killed and however short the transfers are, as long as the parent's
    counts fit: the file is what has got through, then what lies behind it in the pipes, the
    children and the buffers, hop by hop, and what child 0 has not read. What gets through stays in
    the pipe of the last child, which has room for `capacity` bytes. -/
theorem chain_run {table : List Row} (htable : TableOk table) (hne : table ≠ []) {es : List Event}
    (hr : Lib.Run (Chain.step capacity) CountFits (Chain.start table file) es s) :
    s.toPrnt (table.length - 1) ++ s.behind (table.length - 1) = file ∧
      (s.toPrnt (table.length - 1)).length ≤ capacity ∧ s.Stored ∧
      ∀ es' t, Lib.Run (Chain.step capacity) CountFits s es' t →
        s.toPrnt (table.length - 1) <+: t.toPrnt (table.length - 1) := by
  have hcons : s.Conserved capacity table.length file :=
    hr.invariant (.start htable capacity file) fun _ _ _ h hfit hst => (h.step hfit hst).1
  have hlast : table.length - 1 < table.length := Nat.sub_one_lt_of_lt (List.length_pos_iff.mpr hne)
  refine ⟨?_, hcons.room _, hcons.stored, fun es' t hr' => ?_⟩
  · have hput := put_behind hcons _ hlast
    rwa [put_last hcons] at hput
  · have hcons' : t.Conserved capacity table.length file :=
      hr'.invariant hcons fun _ _ _ h hfit hst => (h.step hfit hst).1
    have hgrows := hcons.put_prefix hr' (table.length - 1)
    rwa [put_last hcons, put_last hcons'] at hgrows

/-- 500 bytes come to the parent, and three of them to the last child. -/
def threeThrough : List Event :=
  [.child 0 (.opened true), .child 0 (.read (some 500)), .child 0 (.put 500)] ++
    shortCount.map .parent ++
  [.child 1 (.opened true), .child 1 (.read (some 3)), .child 1 (.put 3)]

/-- With two processes, after these calls, three of 501 bytes have got through and the rest is
    behind them. -/
theorem chain_run_three : ∃ s, Lib.Run (Chain.step 4096) CountFits
    (Chain.start twoProcs (List.replicate 501 7)) threeThrough s ∧
      s.toPrnt 1 = [7, 7, 7] ∧ s.toPrnt 1 ++ s.behind 1 = List.replicate 501 7 := by
  have hexec : (Lib.exec (Chain.step 4096) CountFits threeThrough
      (Chain.start twoProcs (List.replicate 501 7))).any (fun s => s.toPrnt 1 = [7, 7, 7]) =
        true := by decide +kernel
  obtain ⟨s, hrun, hany⟩ := Lib.Run.exists_of_exec hexec
  exact ⟨s, hrun, of_decide_eq_true hany, (chain_run twoProcs_ok (by decide) hrun).1⟩

end Chain

end CompTech.Select
