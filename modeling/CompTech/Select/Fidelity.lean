import CompTech.Select.Relay

/-!
# What the relay hands on

A connection whose buffer is a ring with contents `q` has received what it sent and then `q`.
`InfoConnect.Holds` is that representation for the code's integer fields; the two update
blocks keep it — the read block always, the write block as long as `write` took between one
byte and `full` of them (`Conn.Holds.read`, `Conn.Holds.wrote`).

That is where the code goes wrong: it asks `write` for `empty` bytes instead of `full`, and it
lets 0 and `EAGAIN` through to code meant for a positive count. `CountFits` excludes exactly
those calls, and `relay_faithful` says that in every run that meets it each connection relays
its bytes. `relay_invents` is the first such call of a real run.

The invariant is `RelayInv`: each served connection has a queue that its ring represents, no `close`
has hit the descriptor it writes, and the parent stands at a connection it serves. `ConnInv.read`
and `ConnInv.wrote` are the two updates; the rest of a step changes at most the descriptors.

`writeCount_eq` needs the size of a buffer below 2³¹: `empty` is an `int`, and `write` takes it as
an unsigned 64-bit count, so a negative one would be enormous.
-/

namespace CompTech.Select

/-! ## The ring of a connection -/

/-- The buffer, the two positions and the two counters represent the queue `q`. -/
def InfoConnect.Holds (c : InfoConnect) (q : List Byte) : Prop :=
  ∃ w r full empty : Nat, c.curWrite = w ∧ c.curRead = r ∧ c.full = full ∧ c.empty = empty ∧
    Lib.Ring c.buf w r full empty q

/-- A fresh buffer is the empty queue. -/
theorem InfoConnect.Holds.start (fdRd fdWr : Int) {sizeBuf : Nat} (h : 1 ≤ sizeBuf) :
    (InfoConnect.start fdRd fdWr sizeBuf).Holds [] := by
  have hne : List.replicate sizeBuf (0 : Byte) ≠ [] := by
    intro hnil
    have hlen := congrArg List.length hnil
    rw [List.length_replicate, List.length_nil] at hlen
    omega
  have hring := Lib.Ring.init hne
  rw [List.length_replicate] at hring
  exact ⟨0, 0, 0, sizeBuf, rfl, rfl, rfl, rfl, hring⟩

/-- The read block in closed form: each field on its own. -/
theorem InfoConnect.readUpdate_eq (c : InfoConnect) (ret : Int) :
    c.readUpdate ret = { c with
      curRead := if c.curRead + ret = c.buf.length then 0 else c.curRead + ret
      full := if c.curWrite ≤ c.curRead then c.full + ret else c.full
      empty := if c.curRead + ret = c.buf.length then c.curWrite else c.empty - ret } := by
  unfold InfoConnect.readUpdate
  by_cases hw : c.curWrite ≤ c.curRead <;> by_cases he : c.curRead + ret = c.buf.length <;>
    simp [hw, he]

/-- The write block in closed form. -/
theorem InfoConnect.writeUpdate_eq (c : InfoConnect) (ret : Int) :
    c.writeUpdate ret = { c with
      curWrite := if c.curWrite + ret = c.buf.length then 0 else c.curWrite + ret
      full := if c.curWrite + ret = c.buf.length then c.curRead else c.full - ret
      empty := if c.curRead ≤ c.curWrite then c.empty + ret else c.empty } := by
  unfold InfoConnect.writeUpdate
  by_cases hr : c.curRead ≤ c.curWrite <;> by_cases he : c.curWrite + ret = c.buf.length <;>
    simp [hr, he]

theorem Conn.read_fds (c : Conn) (d : List Byte) :
    (c.read d).fdRd = c.fdRd ∧ (c.read d).fdWr = c.fdWr := by
  unfold Conn.read
  simp only [InfoConnect.readUpdate_eq, and_self]

theorem Conn.wrote_fds (c : Conn) (n : Nat) :
    (c.wrote n).fdRd = c.fdRd ∧ (c.wrote n).fdWr = c.fdWr := by
  unfold Conn.wrote
  simp only [InfoConnect.writeUpdate_eq, and_self]

/-- The read block appends what `read` stored. -/
theorem Conn.Holds.read {c : Conn} {q d : List Byte} (h : c.Holds q) (hd : d ≠ [])
    (hle : d.length ≤ c.empty.toNat) : (c.read d).Holds (q ++ d) := by
  obtain ⟨w, r, full, empty, hw, hr, hf, he, hring⟩ := h
  have hle' : d.length ≤ empty := by rw [he] at hle; simpa using hle
  have hroom := hring.room
  have hlen : (Lib.patch c.buf r d).length = c.buf.length := Lib.length_patch (by omega)
  unfold Conn.read
  simp only [InfoConnect.readUpdate_eq, hw, hr, hf, he, Int.toNat_natCast, hlen]
  refine ⟨w, _, _, _, rfl, ?_, ?_, ?_, hring.push hd hle'⟩
  · show (if (r : Int) + d.length = c.buf.length then 0 else (r : Int) + d.length) = _
    split <;> split <;> omega
  · show (if (w : Int) ≤ r then (full : Int) + d.length else full) = _
    split <;> split <;> omega
  · show (if (r : Int) + d.length = c.buf.length then (w : Int) else empty - d.length) = _
    split <;> split <;> omega

/-- The write block drops what `write` took. -/
theorem Conn.Holds.wrote {c : Conn} {q : List Byte} {n : Nat} (h : c.Holds q) (hn : 1 ≤ n)
    (hle : (n : Int) ≤ c.full) :
    (c.wrote n).Holds (q.drop n) ∧ (c.wrote n).sent = c.sent ++ q.take n := by
  obtain ⟨w, r, full, empty, hw, hr, hf, he, hring⟩ := h
  have hle' : n ≤ full := by omega
  unfold Conn.wrote
  simp only [InfoConnect.writeUpdate_eq, hw, hr, hf, he, Int.toNat_natCast, (hring.peek hle').2,
    and_true]
  refine ⟨_, r, _, _, ?_, rfl, ?_, ?_, hring.pop hn hle'⟩
  · show (if (w : Int) + n = c.buf.length then 0 else (w : Int) + n) = _
    split <;> split <;> omega
  · show (if (w : Int) + n = c.buf.length then (r : Int) else full - n) = _
    split <;> split <;> omega
  · show (if (r : Int) ≤ w then (empty : Int) + n else empty) = _
    split <;> split <;> omega

/-- Storing into the room does not change the size of the buffer. -/
theorem Conn.Holds.length_read {c : Conn} {q d : List Byte} (h : c.Holds q)
    (hle : d.length ≤ c.empty.toNat) : (c.read d).buf.length = c.buf.length := by
  obtain ⟨w, r, full, empty, _, hr, _, he, hring⟩ := h
  have hroom := hring.room
  have hle' : d.length ≤ empty := by rw [he] at hle; simpa using hle
  unfold Conn.read
  simp only [InfoConnect.readUpdate_eq, hr, Int.toNat_natCast]
  exact Lib.length_patch (by omega)

theorem Conn.wrote_buf (c : Conn) (n : Nat) : (c.wrote n).buf = c.buf := by
  unfold Conn.wrote
  simp only [InfoConnect.writeUpdate_eq]

/-! ## What a reader checks -/

/-- What has been read and not handed on. -/
def Conn.unsent (c : Conn) : List Byte := c.received.drop c.sent.length

/-- What a reader at the other end can rely on. -/
structure Conn.Faithful (c : Conn) : Prop where
  /-- it gets what was read, in order and once -/
  sentOnce : c.sent <+: c.received
  /-- it finds its end only when it has got everything -/
  closed_drained : c.wrClosed = true → c.sent = c.received

/-- The `n` bytes at `cur_write` lie in the buffer and are the next unsent ones. -/
def Conn.Stored (c : Conn) (n : Nat) : Prop :=
  c.Inside c.curWrite n ∧ n ≤ c.unsent.length ∧
    (c.buf.drop c.curWrite.toNat).take n = c.unsent.take n

namespace Parent

/-- Every connection the loop serves relays its bytes. -/
def Relays (s : Parent) : Prop :=
  ∀ i < s.numServed, ∀ c, s.conns[i]? = some c → c.Faithful

/-- The calls of the next step stay in the buffer, and `write` is asked for no more than the
    unsent bytes at `cur_write`. -/
def CallsFit (s : Parent) (k : Kernel) : Prop :=
  ∀ i c, s.conns[i]? = some c →
    (s.pc = .reading i → s.reads k c = true → c.Inside c.curRead c.empty.toNat) ∧
    (s.pc = .writing i → s.writes k c = true → c.Stored c.writeCount)

/-- The connection whose write block comes next. -/
def writer (s : Parent) : Option Conn :=
  match s.pc with
  | .writing i => s.conns[i]?
  | _ => none

/-- A call of `write` asks for no more than `full`, and it is neither refused nor answered
    with 0. -/
def CountFits (s : Parent) (k : Kernel) : Prop :=
  ∀ c ∈ s.writer, s.writes k c = true →
    c.empty ≤ c.full ∧ k.write ≠ .again ∧ k.write ≠ .took 0

instance (s : Parent) (k : Kernel) : Decidable (s.CountFits k) :=
  inferInstanceAs (Decidable (∀ c ∈ s.writer, s.writes k c = true →
    c.empty ≤ c.full ∧ k.write ≠ .again ∧ k.write ≠ .took 0))

/-- The condition, for the connection at hand. -/
theorem CountFits.apply {s : Parent} {k : Kernel} {i : Nat} {c : Conn} (h : s.CountFits k)
    (hpc : s.pc = .writing i) (hc : s.conns[i]? = some c) (hw : s.writes k c = true) :
    c.empty ≤ c.full ∧ k.write ≠ .again ∧ k.write ≠ .took 0 := by
  refine h c ?_ hw
  rw [writer, hpc]
  exact hc

end Parent

/-- The rows the loop serves. Nothing is asked of the sizes of the descriptors; `Relay` says why no
    bound of `select` on them is needed. -/
structure TableOk (table : List Row) : Prop where
  /-- `size_buf` is a positive `int` -/
  size : ∀ r ∈ table.dropLast, 1 ≤ r.sizeBuf ∧ r.sizeBuf < 2 ^ 31
  /-- descriptors 0 and 1 were in use when the pipes were made -/
  std : ∀ r ∈ table.dropLast, r.fdWr ≠ 0 ∧ r.fdWr ≠ 1
  /-- no connection reads what another one writes -/
  apart : ∀ r ∈ table.dropLast, ∀ r' ∈ table.dropLast, r.fdRd ≠ r'.fdWr

/-! ## The invariant -/

/-- What is true of a served connection at every step. -/
structure ConnInv (c : Conn) : Prop where
  /-- the bytes read are those sent and those in the ring -/
  queue : ∃ q, c.received = c.sent ++ q ∧ c.Holds q
  /-- nothing has closed the descriptor it writes -/
  wrOpen : c.wrClosed = false
  /-- which is neither of the two that the clean-up hits -/
  std : c.fdWr ≠ 0 ∧ c.fdWr ≠ 1
  size : c.buf.length < 2 ^ 31

/-- The served connections, and that no descriptor read is one that is written. -/
structure TableInv (conns : List Conn) : Prop where
  /-- each served connection has its own invariant -/
  conn : ∀ i c, i < conns.length - 1 → conns[i]? = some c → ConnInv c
  /-- what is read stays apart from what is written -/
  apart : ∀ i j c d, i < conns.length - 1 → j < conns.length - 1 → conns[i]? = some c →
    conns[j]? = some d → 0 ≤ c.fdRd → c.fdRd ≠ d.fdWr

/-- The invariant of the loop. -/
structure RelayInv (s : Parent) : Prop where
  table : TableInv s.conns
  /-- the connection at hand is one of the served ones -/
  pc : ∀ i, s.pc = .reading i ∨ s.pc = .writing i ∨ s.pc = .ending i → i < s.numServed

/-- The invariant gives the two properties. -/
theorem ConnInv.faithful {c : Conn} (h : ConnInv c) : c.Faithful := by
  obtain ⟨q, hq, _⟩ := h.queue
  refine ⟨⟨q, hq.symm⟩, fun hclosed => ?_⟩
  rw [h.wrOpen] at hclosed
  cases hclosed

/-- What is in the queue is what is unsent. -/
theorem unsent_eq {c : Conn} {q : List Byte} (h : c.received = c.sent ++ q) : c.unsent = q := by
  rw [Conn.unsent, h, List.drop_left']
  rfl

/-- The read call asks for the room at `cur_read`. -/
theorem ConnInv.read_inside {c : Conn} (h : ConnInv c) : c.Inside c.curRead c.empty.toNat := by
  obtain ⟨q, _, w, r, full, empty, _, hr, _, he, hring⟩ := h.queue
  have hroom := hring.room
  rw [hr, he]
  exact ⟨by omega, by omega⟩

/-- The conversion to `size_t` is harmless, as `empty` is not negative. -/
theorem ConnInv.writeCount_eq {c : Conn} (h : ConnInv c) : (c.writeCount : Int) = c.empty := by
  obtain ⟨q, _, w, r, full, empty, _, _, _, he, hring⟩ := h.queue
  have hroom := hring.room
  have hsize := h.size
  rw [InfoConnect.writeCount, he, BitVec.ofInt_natCast, BitVec.toNat_ofNat]
  omega

/-- A count of at most `full` is met by unsent bytes that lie in the buffer. -/
theorem ConnInv.stored {c : Conn} (h : ConnInv c) (hle : c.empty ≤ c.full) :
    c.Stored c.writeCount := by
  have hcount := h.writeCount_eq
  obtain ⟨q, hq, w, r, full, empty, hw, _, hf, _, hring⟩ := h.queue
  have hfull := hring.full_le
  have hle' : c.writeCount ≤ full := by omega
  obtain ⟨hlen, hpeek⟩ := hring.peek hle'
  refine ⟨?_, ?_, ?_⟩
  · rw [hw]
    exact ⟨by omega, by omega⟩
  · rw [unsent_eq hq]
    exact hlen
  · rw [unsent_eq hq, hw, Int.toNat_natCast]
    exact hpeek

/-- The read block keeps it. -/
theorem ConnInv.read {c : Conn} {d : List Byte} (h : ConnInv c) (hd : d ≠ [])
    (hle : d.length ≤ c.empty.toNat) : ConnInv (c.read d) := by
  obtain ⟨q, hq, hholds⟩ := h.queue
  refine ⟨⟨q ++ d, ?_, Conn.Holds.read hholds hd hle⟩, h.wrOpen,
    by rw [(c.read_fds d).2]; exact h.std, by rw [Conn.Holds.length_read hholds hle]; exact h.size⟩
  show c.received ++ d = c.sent ++ (q ++ d)
  rw [hq, List.append_assoc]

/-- The write block keeps it, for a count of 1 up to `full`. -/
theorem ConnInv.wrote {c : Conn} {n : Nat} (h : ConnInv c) (hn : 1 ≤ n) (hle : n ≤ c.full) :
    ConnInv (c.wrote n) := by
  obtain ⟨q, hq, hholds⟩ := h.queue
  obtain ⟨hholds', hsent⟩ := Conn.Holds.wrote hholds hn hle
  refine ⟨⟨q.drop n, ?_, hholds'⟩, h.wrOpen, by rw [(c.wrote_fds n).2]; exact h.std,
    by rw [c.wrote_buf]; exact h.size⟩
  rw [hsent, List.append_assoc, List.take_append_drop]
  exact hq

/-! ## One step -/

/-- An entry of a table in which entry `i` was changed. -/
theorem getElem?_modify_cases {conns : List Conn} {i j : Nat} {f : Conn → Conn} {c : Conn}
    (h : (conns.modify i f)[j]? = some c) :
    ∃ d, conns[j]? = some d ∧ (j ≠ i ∧ c = d ∨ j = i ∧ c = f d) := by
  rw [List.getElem?_modify, Option.map_eq_map, Option.map_eq_some_iff] at h
  obtain ⟨d, hd, hcd⟩ := h
  refine ⟨d, hd, ?_⟩
  by_cases hij : i = j
  · rw [if_pos hij] at hcd
    exact .inr ⟨hij.symm, hcd.symm⟩
  · rw [if_neg hij] at hcd
    exact .inl ⟨Ne.symm hij, hcd.symm⟩

/-- An entry of a table in which descriptor `fd` was closed. -/
theorem getElem?_closeFd_cases {conns : List Conn} {fd : Int} {i : Nat} {c : Conn}
    (h : (closeFd fd conns)[i]? = some c) :
    ∃ d, conns[i]? = some d ∧ (d.fdWr ≠ fd → c = d) ∧ c.toInfoConnect = d.toInfoConnect := by
  rw [closeFd, List.getElem?_map, Option.map_eq_some_iff] at h
  obtain ⟨d, hd, rfl⟩ := h
  refine ⟨d, hd, fun hne => if_neg hne, ?_⟩
  split <;> rfl

/-- An entry may change as long as it keeps its own invariant and its descriptors only
    disappear. -/
theorem TableInv.modify {conns : List Conn} {i : Nat} {f : Conn → Conn} (h : TableInv conns)
    (hf : ∀ c, ConnInv c → conns[i]? = some c → ConnInv (f c))
    (hrd : ∀ c, (f c).fdRd = c.fdRd ∨ (f c).fdRd = -1)
    (hwr : ∀ c, (f c).fdWr = c.fdWr ∨ (f c).fdWr = -1) : TableInv (conns.modify i f) := by
  constructor
  · intro j c hj hc
    rw [List.length_modify] at hj
    obtain ⟨d, hd, ⟨-, rfl⟩ | ⟨rfl, rfl⟩⟩ := getElem?_modify_cases hc
    · exact h.conn j _ hj hd
    · exact hf d (h.conn _ d hj hd) hd
  · intro j l c d hj hl hc hd hpos
    rw [List.length_modify] at hj hl
    obtain ⟨c', hc', hcase⟩ := getElem?_modify_cases hc
    obtain ⟨d', hd', hcase'⟩ := getElem?_modify_cases hd
    have hapart := h.apart j l c' d' hj hl hc' hd'
    have hrd' : c.fdRd = c'.fdRd ∨ c.fdRd = -1 := by
      rcases hcase with ⟨-, rfl⟩ | ⟨-, rfl⟩
      · exact .inl rfl
      · exact hrd c'
    have hwr' : d.fdWr = d'.fdWr ∨ d.fdWr = -1 := by
      rcases hcase' with ⟨-, rfl⟩ | ⟨-, rfl⟩
      · exact .inl rfl
      · exact hwr d'
    omega

/-- Closing a descriptor no served connection writes. -/
theorem TableInv.closeFd {conns : List Conn} (h : TableInv conns) (fd : Int)
    (hfd : ∀ j d, j < conns.length - 1 → conns[j]? = some d → d.fdWr ≠ fd) :
    TableInv (closeFd fd conns) := by
  have hlen : (CompTech.Select.closeFd fd conns).length = conns.length := List.length_map _
  have hentry : ∀ j c, j < conns.length - 1 → (CompTech.Select.closeFd fd conns)[j]? = some c →
      conns[j]? = some c := by
    intro j c hj hc
    obtain ⟨d, hd, hsame, -⟩ := getElem?_closeFd_cases hc
    rw [hsame (hfd j d hj hd)]
    exact hd
  constructor
  · intro j c hj hc
    rw [hlen] at hj
    exact h.conn j c hj (hentry j c hj hc)
  · intro j l c d hj hl hc hd
    rw [hlen] at hj hl
    exact h.apart j l c d hj hl (hentry j c hj hc) (hentry l d hl hd)

namespace Parent

variable {s t : Parent} {k : Kernel}

/-- Where the loop goes on. -/
theorem pc_round {i j : Nat}
    (h : s.round i = .reading j ∨ s.round i = .writing j ∨ s.round i = .ending j) :
    j < s.numServed := by
  unfold round at h
  split at h
  · rcases h with h | h | h <;> cases h
    assumption
  · split at h <;> rcases h with h | h | h <;> cases h

end Parent

/-- A state whose table meets the invariant and that stops at `select` or in front of a block
    of a served connection. -/
theorem RelayInv.of_round {s : Parent} {i : Nat} (h : TableInv s.conns) (hpc : s.pc = s.round i) :
    RelayInv s :=
  ⟨h, fun _ hj => Parent.pc_round (hpc ▸ hj)⟩

theorem RelayInv.exit {s : Parent} (h : RelayInv s) : RelayInv { s with pc := .exited } :=
  ⟨h.table, fun _ hj => by rcases hj with hj | hj | hj <;> cases hj⟩

theorem RelayInv.select {s t : Parent} {k : Kernel} (h : RelayInv s) (hst : s.select k = some t) :
    RelayInv t := by
  unfold Parent.select at hst
  split at hst
  · cases hst
    exact h.exit
  · split at hst
    · cases hst
      exact .of_round h.table rfl
    · cases hst

/-- The first block: what `read` gave is stored in the room. -/
theorem RelayInv.readBlock {s t : Parent} {k : Kernel} {i : Nat} {c : Conn} (h : RelayInv s)
    (hi : i < s.numServed) (hc : s.conns[i]? = some c) (hst : s.readBlock k i c = some t) :
    RelayInv t := by
  have hci := h.table.conn i c hi hc
  unfold Parent.readBlock at hst
  split at hst
  · split at hst
    · cases hst
      exact h.exit
    · rename_i hpos
      split at hst
      · cases hst
        exact h.exit
      · -- the end of the input: `close (fd_rd)`, a descriptor no connection writes
        cases hst
        have hclose := h.table.closeFd c.fdRd fun j d hj hd heq =>
          h.table.apart i j c d hi hj hc hd (by omega) heq.symm
        refine .of_round (hclose.modify (fun c' hc' _ => ?_) (fun _ => .inr rfl)
          (fun _ => .inl rfl)) rfl
        exact ⟨hc'.queue, hc'.wrOpen, hc'.std, hc'.size⟩
      -- bytes have come: the ring of this connection grows, the rest of the table stays
      · rename_i d hnil _
        split at hst
        · rename_i hok
          cases hst
          refine ⟨h.table.modify (fun c' hc' hc'' => ?_) (fun c' => .inl (c'.read_fds d).1)
            (fun c' => .inl (c'.read_fds d).2), fun j hj => ?_⟩
          · obtain rfl : c = c' := Option.some.inj (hc.symm.trans hc'')
            exact hc'.read hnil hok.1
          · rcases hj with hj | hj | hj <;> cases hj
            simpa [Parent.numServed] using hi
        · cases hst
  · cases hst
    refine ⟨h.table, fun j hj => ?_⟩
    rcases hj with hj | hj | hj <;> cases hj
    exact hi

/-- The second block, with a count that fits. -/
theorem RelayInv.writeBlock {s t : Parent} {k : Kernel} {i : Nat} {c : Conn} (h : RelayInv s)
    (hi : i < s.numServed) (hc : s.conns[i]? = some c)
    (hfit : s.writes k c = true → c.empty ≤ c.full ∧ k.write ≠ .again ∧ k.write ≠ .took 0)
    (hst : s.writeBlock k i c = some t) : RelayInv t := by
  have hci := h.table.conn i c hi hc
  unfold Parent.writeBlock at hst
  split at hst
  · rename_i hwrites
    obtain ⟨hle, hagain, htook⟩ := hfit hwrites
    split at hst
    · cases hst
      exact h.exit
    · split at hst
      · cases hst
        exact h.exit
      -- the two answers the condition excludes
      · rename_i heq
        exact absurd heq hagain
      · rename_i n heq
        have hn : n ≠ 0 := fun hzero => htook (heq.trans (by rw [hzero]))
        split at hst
        · rename_i hok
          cases hst
          -- the kernel took at most `empty`, and that is at most `full`
          have hfull : (n : Int) ≤ c.full := by
            have hcount := hci.writeCount_eq
            have hle' := hok.1
            omega
          refine ⟨h.table.modify (fun c' hc' hc'' => ?_) (fun c' => .inl (c'.wrote_fds n).1)
            (fun c' => .inl (c'.wrote_fds n).2), fun j hj => ?_⟩
          · obtain rfl : c = c' := Option.some.inj (hc.symm.trans hc'')
            exact hc'.wrote (Nat.one_le_iff_ne_zero.mpr hn) hfull
          · rcases hj with hj | hj | hj <;> cases hj
            simpa [Parent.numServed] using hi
        · cases hst
  · cases hst
    refine ⟨h.table, fun j hj => ?_⟩
    rcases hj with hj | hj | hj <;> cases hj
    exact hi

/-- The last block. What it closes is descriptor 0 or 1, which no served connection writes. -/
theorem RelayInv.endBlock {s t : Parent} {k : Kernel} {i : Nat} {c : Conn} (h : RelayInv s)
    (hst : s.endBlock k i c = some t) : RelayInv t := by
  unfold Parent.endBlock at hst
  split at hst
  · split at hst
    · cases hst
      exact h.exit
    · split at hst
      · cases hst
        have hclose := h.table.closeFd (if c.fdWr < 0 then 1 else 0) fun j d hj hd => by
          have hstd := (h.table.conn j d hj hd).std
          split
          · exact hstd.2
          · exact hstd.1
        refine .of_round (hclose.modify (fun c' hc' _ => ?_) (fun _ => .inl rfl)
          (fun _ => .inr rfl)) rfl
        exact ⟨hc'.queue, hc'.wrOpen, ⟨show (-1 : Int) ≠ 0 by decide,
          show (-1 : Int) ≠ 1 by decide⟩, hc'.size⟩
      · cases hst
        exact h.exit
  · cases hst
    exact .of_round h.table rfl

/-- **One step.** A step whose write call, if it makes one, fits keeps the invariant. -/
theorem RelayInv.step {s t : Parent} {k : Kernel} (h : RelayInv s) (hfit : s.CountFits k)
    (hst : s.step k = some t) : RelayInv t := by
  unfold Parent.step at hst
  split at hst
  · exact h.select hst
  · rename_i i hpc
    obtain ⟨c, hc, hblock⟩ := Option.bind_eq_some_iff.mp hst
    exact h.readBlock (h.pc i (.inl hpc)) hc hblock
  · rename_i i hpc
    obtain ⟨c, hc, hblock⟩ := Option.bind_eq_some_iff.mp hst
    exact h.writeBlock (h.pc i (.inr (.inl hpc))) hc (hfit.apply hpc hc) hblock
  · obtain ⟨c, hc, hblock⟩ := Option.bind_eq_some_iff.mp hst
    exact h.endBlock hblock
  · cases hst
  · cases hst

/-! ## Runs -/

theorem RelayInv.start {table : List Row} (h : TableOk table) : RelayInv (Parent.start table) := by
  have hrow : ∀ i c, i < (Parent.start table).conns.length - 1 →
      (Parent.start table).conns[i]? = some c → ∃ r ∈ table.dropLast, c = Conn.start r := by
    intro i c hi hc
    simp only [Parent.start, List.length_map] at hi hc
    rw [List.getElem?_map, Option.map_eq_some_iff] at hc
    obtain ⟨r, hr, rfl⟩ := hc
    refine ⟨r, ?_, rfl⟩
    have hdrop : table.dropLast[i]? = some r := by
      rw [List.dropLast_eq_take, List.getElem?_take, if_pos hi]
      exact hr
    exact List.mem_of_getElem? hdrop
  refine ⟨⟨fun i c hi hc => ?_, fun i j c d hi hj hc hd _ => ?_⟩, fun i hi => ?_⟩
  · obtain ⟨r, hr, rfl⟩ := hrow i c hi hc
    refine ⟨⟨[], rfl, .start _ _ (h.size r hr).1⟩, rfl, h.std r hr, ?_⟩
    show (List.replicate r.sizeBuf (0 : Byte)).length < 2 ^ 31
    rw [List.length_replicate]
    exact (h.size r hr).2
  · obtain ⟨r, hr, rfl⟩ := hrow i c hi hc
    obtain ⟨r', hr', rfl⟩ := hrow j d hj hd
    exact h.apart r hr r' hr'
  · unfold Parent.start at hi
    dsimp only at hi
    split at hi <;> rcases hi with hi | hi | hi <;> cases hi

/-- **The relay, when its counts fit.** In every run whose write calls ask for no more than `full`
    and are answered with a positive count or an error, each connection the loop serves has handed
    on a prefix of what it received, none of the descriptors written is closed before its last byte,
    and the next call stays within the buffer and within the unsent bytes. The condition is about
    `write` calls only: a `read` is always asked for the room there is. -/
theorem relay_faithful {table : List Row} (h : TableOk table) {ks : List Kernel} {s : Parent}
    (hr : Lib.Run Parent.step Parent.CountFits (Parent.start table) ks s) :
    s.Relays ∧ ∀ k, s.CountFits k → s.CallsFit k := by
  have hinv : RelayInv s := hr.invariant (RelayInv.start h) fun _ _ _ hi hok hst => hi.step hok hst
  refine ⟨fun i hi c hc => (hinv.table.conn i c hi hc).faithful, fun k hfit i c hc => ⟨?_, ?_⟩⟩
  · intro hpc _
    exact (hinv.table.conn i c (hinv.pc i (.inl hpc)) hc).read_inside
  · intro hpc hwrites
    exact (hinv.table.conn i c (hinv.pc i (.inr (.inl hpc))) hc).stored
      (hfit.apply hpc hc hwrites).1

/-- Two processes: one connection is served, through a buffer of 729 bytes. -/
def twoProcs : List Row := [⟨3, 8, 729⟩, ⟨4, 0, 243⟩]

theorem twoProcs_ok : TableOk twoProcs := by
  refine ⟨?_, ?_, ?_⟩ <;> decide

/-- The kernel when nothing is ready and nothing fails. -/
def idle : Kernel := ⟨false, [], [], false, none, .error, true⟩

/-- 500 bytes arrive, and `write`, asked for 229, takes three of them. -/
def shortCount : List Kernel :=
  [{ idle with readyRd := [3] }, { idle with read := some (List.replicate 500 7) }, idle, idle,
   { idle with readyWr := [8] }, idle, { idle with write := .took 3 }]

/-- A run with a `write` that takes three bytes of 500. -/
theorem relay_faithful_shortCount : ∃ s, Lib.Run Parent.step Parent.CountFits
    (Parent.start twoProcs) shortCount s ∧ s.Relays := by
  have hexec : (Lib.exec Parent.step Parent.CountFits shortCount (Parent.start twoProcs)).any
      (fun _ => true) = true := by decide +kernel
  obtain ⟨s, hrun, -⟩ := Lib.Run.exists_of_exec hexec
  exact ⟨s, hrun, (relay_faithful twoProcs_ok hrun).1⟩

/-- One byte arrives; `write` is asked for the 728 bytes of room behind it and takes them. -/
def longCount : List Kernel :=
  [{ idle with readyRd := [3] }, { idle with read := some [7] }, idle, idle,
   { idle with readyWr := [8] }, idle, { idle with write := .took 728 }]

/-- The first connection is served and has handed on more than it received. -/
def inventing (s : Parent) : Bool :=
  decide (0 < s.numServed) &&
    s.conns[0]?.any fun c => decide (c.received.length < c.sent.length)

/-- The relay invents bytes: 728 have been handed on, and one was received. `write` was asked for
    `empty` bytes, which is 728 of the 729 in the buffer. -/
theorem relay_invents : ¬ ∀ (table : List Row), TableOk table → ∀ ks s,
    Lib.Run Parent.step Lib.Always (Parent.start table) ks s →
      s.Relays ∧ ∀ k, s.CallsFit k := by
  intro hall
  have hexec : (Lib.exec Parent.step Lib.Always longCount (Parent.start twoProcs)).any
      inventing = true := by decide +kernel
  obtain ⟨s, hrun, hs⟩ := Lib.Run.exists_of_exec hexec
  rw [inventing, Bool.and_eq_true, decide_eq_true_eq, Option.any_eq_true] at hs
  obtain ⟨hserved, c, hc, hlt⟩ := hs
  have hprefix := ((hall twoProcs twoProcs_ok _ s hrun).1 0 hserved c hc).sentOnce
  exact absurd hprefix.length_le (Nat.not_le_of_lt (of_decide_eq_true hlt))

end CompTech.Select
