import CompTech.Select.Fidelity

/-!
# The two update blocks

What the parent does to a connection after a `read` and after a `write`, on their own: `Conn.update`
is the machine whose events are the two blocks, each with what the call in front of it moved.

As long as the calls move at least one byte and no more than they may (`Conn.Fits`), the
bookkeeping is that of a ring buffer (`ring_bookkeeping`): the two counters are the lengths of the
stretch of unsent bytes at `cur_write` and of the free stretch at `cur_read`.

A refused `write` is no such event. `EAGAIN` is let through to the update with its −1, and
`refused_never_intact` says that this changes the connection in every state.

The two halves have one representation in common, `InfoConnect.Holds` of `Fidelity`, and neither
needs the loop: the update blocks are functions of the connection alone, so what they keep is said
of any sequence of them.
-/

namespace CompTech.Select

/-! ## The bookkeeping -/

/-- One of the two blocks, with what the call before it moved. -/
inductive Update
  -- `read` stored these bytes
  | read (d : List Byte)
  -- `write` took that many
  | wrote (n : Nat)

/-- The block runs. It is defined for every answer; `Conn.Fits` says for which it is meant. -/
def Conn.update (c : Conn) : Update → Option Conn
  | .read d => some (c.read d)
  | .wrote n => some (c.wrote n)

/-- A call moves at least one byte, and no more than the counter says. -/
def Conn.Fits (c : Conn) : Update → Prop
  | .read d => 1 ≤ d.length ∧ (d.length : Int) ≤ c.empty
  | .wrote n => 1 ≤ n ∧ (n : Int) ≤ c.full

instance (c : Conn) (u : Update) : Decidable (c.Fits u) :=
  match u with
  | .read _ | .wrote _ => inferInstanceAs (Decidable (_ ∧ _))

/-- Cell `i` holds a byte that was read and not sent. -/
def Conn.occupied (c : Conn) (i : Nat) : Bool :=
  Lib.occupied c.buf.length c.curWrite.toNat c.unsent.length i

/-- What the fields of an `info_connect` mean. The two counters are read off the buffer, as the
    lengths of two stretches of its cells, and not off one another. -/
structure Conn.Bookkept (c : Conn) : Prop where
  curRead : 0 ≤ c.curRead ∧ c.curRead < c.buf.length
  curWrite : 0 ≤ c.curWrite ∧ c.curWrite < c.buf.length
  fits : c.unsent.length ≤ c.buf.length
  /-- the unsent bytes lie from `cur_write` on, going round -/
  bytes : ∀ k, k < c.unsent.length →
    c.buf[(c.curWrite.toNat + k) % c.buf.length]? = c.unsent[k]?
  /-- `full` of them are in one piece from `cur_write` on -/
  full : c.full = Lib.stretch c.occupied c.buf.length c.curWrite.toNat
  /-- and `empty` free cells are in one piece from `cur_read` on -/
  empty : c.empty = Lib.stretch (fun i => !c.occupied i) c.buf.length c.curRead.toNat
  /-- the buffer cannot be full and empty at once -/
  notBoth : ¬(c.full = 0 ∧ c.empty = 0)
  taken : c.sent <+: c.received

/-- What the update blocks keep: the buffer is a ring with the unsent bytes in it. -/
structure Conn.Kept (size : Nat) (c : Conn) : Prop where
  queue : ∃ q, c.received = c.sent ++ q ∧ c.Holds q
  size : c.buf.length = size

/-- A ring with the unsent bytes in it is kept as `Bookkept` says. -/
theorem Conn.Kept.bookkept {size : Nat} {c : Conn} (h : c.Kept size) : c.Bookkept := by
  obtain ⟨q, hq, w, r, full, empty, hw, hr, hf, he, hring⟩ := h.queue
  have hunsent : c.unsent = q := unsent_eq hq
  have hwrite := hring.write_lt
  have hread := hring.read_lt
  have hpos := hring.pos
  have hoccupied : c.occupied = Lib.occupied c.buf.length w q.length := by
    funext i
    rw [Conn.occupied, hw, Int.toNat_natCast, hunsent]
  refine ⟨by omega, by omega, ?_, fun k hk => ?_, ?_, ?_, by omega, ⟨q, hq.symm⟩⟩
  · rw [hunsent]
    exact hring.length_le
  · rw [hunsent] at hk ⊢
    rw [hw, Int.toNat_natCast]
    exact hring.cell hk
  · rw [hf, hoccupied, hw, Int.toNat_natCast, hring.stretch_full]
  · rw [he, hoccupied, hr, Int.toNat_natCast, hring.stretch_empty]

/-- Each block keeps the ring. The cases are the two blocks. -/
theorem Conn.Kept.update {size : Nat} {c d : Conn} {u : Update} (h : c.Kept size)
    (hu : c.Fits u) (hst : c.update u = some d) : d.Kept size := by
  obtain ⟨q, hq, hholds⟩ := h.queue
  cases u with
  | read bytes =>
    obtain ⟨hone, hle⟩ := hu
    have hle' : bytes.length ≤ c.empty.toNat := by omega
    cases hst
    refine ⟨⟨q ++ bytes, ?_, Conn.Holds.read hholds (List.ne_nil_of_length_pos hone) hle'⟩,
      (Conn.Holds.length_read hholds hle').trans h.size⟩
    show c.received ++ bytes = c.sent ++ (q ++ bytes)
    rw [hq, List.append_assoc]
  | wrote n =>
    obtain ⟨hone, hle⟩ := hu
    cases hst
    obtain ⟨hholds', hsent⟩ := Conn.Holds.wrote hholds hone hle
    refine ⟨⟨q.drop n, ?_, hholds'⟩, by rw [c.wrote_buf]; exact h.size⟩
    rw [hsent, List.append_assoc, List.take_append_drop]
    exact hq

/-- **The ring buffer of a connection.** After every sequence of update blocks whose calls fit, the
    two positions lie in the buffer, `full` and `empty` are the stretches they stand for and not
    both zero, and what was sent is a prefix of what was received. Both update blocks are those of
    the program, with its comparisons of the two pointers; a call that moves nothing or more than it
    may is not among the events. -/
theorem ring_bookkeeping {row : Row} (hsize : 1 ≤ row.sizeBuf) {us : List Update} {c : Conn}
    (hr : Lib.Run Conn.update Conn.Fits (Conn.start row) us c) :
    c.Bookkept ∧ c.buf.length = row.sizeBuf := by
  have hstart : (Conn.start row).Kept row.sizeBuf :=
    ⟨⟨[], rfl, .start _ _ hsize⟩, List.length_replicate⟩
  have hkept : c.Kept row.sizeBuf :=
    hr.invariant hstart fun _ _ _ ht hok hst => ht.update hok hst
  exact ⟨hkept.bookkept, hkept.size⟩

/-- Four cells: three bytes come, two go, and three more come, over the end of the buffer. -/
theorem ring_bookkeeping_round : ∃ c, Lib.Run Conn.update Conn.Fits (Conn.start ⟨3, 8, 4⟩)
    [.read [1, 2, 3], .wrote 2, .read [4], .read [5, 6]] c ∧ c.Bookkept := by
  have hexec : (Lib.exec Conn.update Conn.Fits [.read [1, 2, 3], .wrote 2, .read [4], .read [5, 6]]
      (Conn.start ⟨3, 8, 4⟩)).any (fun _ => true) = true := by decide
  obtain ⟨c, hrun, -⟩ := Lib.Run.exists_of_exec hexec
  exact ⟨c, hrun, (ring_bookkeeping (by decide) hrun).1⟩

/-! ## A refused write -/

/-- The write block of connection `i` comes next, and its `write` is refused with `EAGAIN`. -/
structure Parent.Refused (s : Parent) (k : Kernel) (i : Nat) (c : Conn) : Prop where
  pc : s.pc = .writing i
  conn : s.conns[i]? = some c
  writes : s.writes k c = true
  fd : 0 ≤ c.fdWr
  again : k.write = .again

/-- The step leaves the fields of connection `i` as they are. -/
def Parent.LeavesIntact (s : Parent) (k : Kernel) (i : Nat) (c : Conn) : Prop :=
  ∃ t, s.step k = some t ∧
    ∃ c', t.conns[i]? = some c' ∧ c'.toInfoConnect = c.toInfoConnect

/-- `cur_write` moves, whatever the state: down by one, or from behind the end of the buffer to
    its beginning. -/
theorem Conn.refused_curWrite (c : Conn) : c.refused.curWrite ≠ c.curWrite := by
  unfold Conn.refused
  simp only [InfoConnect.writeUpdate_eq]
  split <;> omega

/-- The update block runs, with −1, and the loop goes on. -/
theorem Parent.Refused.step {s : Parent} {k : Kernel} {i : Nat} {c : Conn}
    (h : s.Refused k i c) : s.step k =
      some { s with conns := s.conns.modify i Conn.refused, pc := .ending i } := by
  have hfd : ¬c.fdWr < 0 := Int.not_lt.mpr h.fd
  simp only [Parent.step, h.pc, h.conn, Option.bind_some, Parent.writeBlock, h.writes, if_true,
    if_neg hfd, h.again]

/-- Since `cur_write` has moved. -/
theorem Parent.Refused.not_intact {s : Parent} {k : Kernel} {i : Nat} {c : Conn}
    (h : s.Refused k i c) : ¬s.LeavesIntact k i c := by
  rintro ⟨t, hst, c', hc', hsame⟩
  rw [h.step, Option.some.injEq] at hst
  subst hst
  obtain ⟨d, hd, ⟨hne, -⟩ | ⟨-, rfl⟩⟩ := getElem?_modify_cases hc'
  · exact hne rfl
  · obtain rfl : c = d := Option.some.inj (h.conn.symm.trans hd)
    exact c.refused_curWrite (congrArg InfoConnect.curWrite hsame)

/-- **A refused write never leaves the connection intact**, in no state of any run. There is no test
    for it between `write` and the update, and the −1 goes into the counters and to the pointer. -/
theorem refused_never_intact (table : List Row) : ∀ (ks : List Kernel) (s : Parent),
    Lib.Run Parent.step Lib.Always (Parent.start table) ks s →
      ∀ (k : Kernel) (i : Nat) (c : Conn), s.Refused k i c → ¬s.LeavesIntact k i c :=
  fun _ _ _ _ _ _ h => h.not_intact

/-- 500 bytes have arrived and the pipe they go to is full. -/
def fullPipe : List Kernel :=
  [{ idle with readyRd := [3] }, { idle with read := some (List.replicate 500 7) }, idle, idle,
   { idle with readyWr := [8] }, idle]

/-- The write block of the first connection comes next. -/
def refusing (s : Parent) : Bool :=
  decide (s.pc = .writing 0) && s.conns[0]?.any fun c =>
    s.writes { idle with write := .again } c && decide (0 ≤ c.fdWr)

theorem fullPipe_refused : ∃ s, Lib.Run Parent.step Lib.Always (Parent.start twoProcs) fullPipe s ∧
    ∃ c, s.Refused { idle with write := .again } 0 c := by
  have hexec : (Lib.exec Parent.step Lib.Always fullPipe (Parent.start twoProcs)).any refusing =
      true := by decide +kernel
  obtain ⟨s, hrun, hs⟩ := Lib.Run.exists_of_exec hexec
  rw [refusing, Bool.and_eq_true, decide_eq_true_eq, Option.any_eq_true] at hs
  obtain ⟨hpc, c, hc, hcond⟩ := hs
  rw [Bool.and_eq_true, decide_eq_true_eq] at hcond
  exact ⟨s, hrun, c, hpc, hc, hcond.1, hcond.2, rfl⟩

theorem refused_never_intact_fullPipe : ∃ (s : Parent) (c : Conn),
    s.Refused { idle with write := .again } 0 c ∧
      ¬s.LeavesIntact { idle with write := .again } 0 c := by
  obtain ⟨s, hrun, c, hrefused⟩ := fullPipe_refused
  exact ⟨s, c, hrefused, refused_never_intact twoProcs _ s hrun _ _ _ hrefused⟩

/-- The write of the first byte is refused, and `cur_write` points in front of the buffer. -/
theorem refused_moves : ¬ ∀ (table : List Row), TableOk table →
    ∀ (ks : List Kernel) (s : Parent), Lib.Run Parent.step Lib.Always (Parent.start table) ks s →
      ∀ (k : Kernel) (i : Nat) (c : Conn), s.Refused k i c → s.LeavesIntact k i c := by
  intro hall
  obtain ⟨s, hrun, c, hrefused⟩ := fullPipe_refused
  exact hrefused.not_intact (hall twoProcs twoProcs_ok _ s hrun _ _ _ hrefused)

end CompTech.Select
