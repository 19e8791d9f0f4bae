import CompTech.Network.CpuInfo

/-!
# Reading the core ids back

A line has 12 bytes and its digits, and a block has 13 bytes until the first 9 and 14 behind it. So
the blocks and the lines keep step only as long as the ids are below 9; after the 9 a block that
starts `o` bytes into a line ends `o + 2 - k` bytes into the next, for an id of `k` digits. `Ahead`
says which ids are still read: with `o` of 0 or 1 the digits must end in the buffer, and from 2 on
`buff + 10` is behind the first digit and nothing but 0 is read. A second 9 makes the blocks longer
than the buffer, which does no harm to a last line that is shorter.

That no other list is read back rests on a count: every block of 14 bytes that is read has the end
of a line in it (`newline_mem_block`), so a line that went by without an id is never made up for.

The proof follows the blocks. `readLoop_cons` takes one round off the loop for one id off the list;
`Ahead` is the condition in the form in which it goes from a block to the next, with the offset at
which a block starts in its line.
-/

namespace CompTech.Network

open Lib

/-! ## What the query prints

The output of the query is described by itself, as a list of characters, with its length and the
number of its line ends. Nothing in this section is about the reader. -/

/-- `"core id\t\t: "` -/
def header : List Char := ['c', 'o', 'r', 'e', ' ', 'i', 'd', '\t', '\t', ':', ' ']

/-- One line of the query. -/
def line (id : Nat) : List Char := header ++ (Nat.toDigits 10 id ++ ['\n'])

/-- All lines. -/
def printed (ids : List Nat) : List Char := ids.flatMap line

/-- The number of digits. -/
def width (id : Nat) : Nat := (Nat.toDigits 10 id).length

theorem width_pos (id : Nat) : 1 ≤ width id := Nat.length_toDigits_pos

theorem width_le_iff {id k : Nat} (hk : 0 < k) : width id ≤ k ↔ id < 10 ^ k :=
  Nat.length_toDigits_le_iff (by decide) hk

theorem pow_width_le {id : Nat} (h : 2 ≤ width id) : 10 ^ (width id - 1) ≤ id := by
  by_contra hlt
  have := (@width_le_iff id (width id - 1) (by omega)).mpr (by omega)
  omega

theorem width_eq_one_iff {id : Nat} : width id = 1 ↔ id < 10 := by
  have hpos := width_pos id
  have h := @width_le_iff id 1 (by decide)
  omega

theorem length_line (id : Nat) : (line id).length = 12 + width id := by
  simp [line, header, width]
  omega

theorem printed_cons (id : Nat) (ids : List Nat) :
    printed (id :: ids) = header ++ (Nat.toDigits 10 id ++ '\n' :: printed ids) := by
  simp [printed, line]

theorem printed_cons_line (id : Nat) (ids : List Nat) :
    printed (id :: ids) = line id ++ printed ids := rfl

theorem length_printed_cons (id : Nat) (ids : List Nat) :
    (printed (id :: ids)).length = 12 + width id + (printed ids).length := by
  rw [printed_cons_line, List.length_append, length_line]

/-- A line has one end. -/
theorem count_printed (ids : List Nat) : (printed ids).count '\n' = ids.length := by
  induction ids with
  | nil => rfl
  | cons id ids ih =>
    have hdigits : (Nat.toDigits 10 id).count '\n' = 0 := by
      refine List.count_eq_zero.mpr fun hmem => ?_
      exact absurd (Nat.isDigit_of_mem_toDigits (by decide) (by decide) hmem) (by decide)
    rw [printed_cons, List.count_append, List.count_append, hdigits, List.count_cons_self, ih]
    simp [header]

/-- The bytes from `buff + 10` on, in a line that starts in `buff`. -/
theorem drop_ten_printed (id : Nat) (ids : List Nat) (o : Nat) :
    ((printed (id :: ids)).drop o).drop 10 =
      ([' '] ++ (Nat.toDigits 10 id ++ '\n' :: printed ids)).drop o := by
  rw [List.drop_drop, Nat.add_comm, ← List.drop_drop, printed_cons]
  rfl

/-! ## The number in the buffer

`strtol` at a place of the buffer gives one of three results: the number that stands there with
something behind it, 0 where there is no number, and none at all where the digits go up to the end
of the buffer, since the scan would go on behind it. -/

/-- `(int) strtol (mem, NULL, 10)` -/
def intAt (mem : List Char) : Option Int := (strtol mem).map fun scan => asInt scan.value

/-- What has no number is 0. -/
theorem intAt_mute {l : List Char} (h : Mute l) : intAt l = some 0 := by
  rw [intAt, strtol_mute h]
  rfl

/-- Digits up to the end of the buffer: `strtol` would go on behind it. -/
theorem intAt_unterminated {ws ds : List Char} (hws : ∀ c ∈ ws, isSpace c = true)
    (hds : ∀ c ∈ ds, c.isDigit = true) : intAt (ws ++ ds) = none := by
  rw [intAt, strtol_unterminated hws hds]
  rfl

/-- Few digits make a small number. -/
theorem intAt_digits {ws ds t : List Char} {c : Char} (hws : ∀ c ∈ ws, isSpace c = true)
    (hne : ds ≠ []) (hds : ∀ c ∈ ds, c.isDigit = true) (hlen : ds.length ≤ 4)
    (hc : c.isDigit = false) :
    intAt (ws ++ (ds ++ c :: t)) = some ((Nat.ofDigitChars 10 ds 0 : Nat) : Int) := by
  have hlt : Nat.ofDigitChars 10 ds 0 < 10 ^ 4 :=
    Nat.lt_of_lt_of_le (ofDigitChars_lt hds) (Nat.pow_le_pow_right (by decide) hlen)
  rw [intAt, strtol_digits hws hne hds hc, Option.map_some,
    Scan.value_ofInt (by unfold LONG_MIN; omega) (by unfold LONG_MAX; omega),
    asInt_eq_self_iff.mpr (by omega)]

/-- Four bytes make a number of four digits at most. -/
theorem intAt_lt {l : List Char} {id : Int} (hlen : l.length ≤ 4) (h : intAt l = some id) :
    id.natAbs < 10 ^ 4 := by
  obtain ⟨scan, hscan, rfl⟩ := Option.map_eq_some_iff.mp h
  have hlt : scan.value.natAbs < 10 ^ 4 := Nat.lt_of_lt_of_le (value_lt_of_strtol hscan)
    (Nat.pow_le_pow_right (by decide) hlen)
  rwa [asInt_eq_self_iff.mpr (by omega)]

/-- A few bytes of a line from its end on, up to the `:` in front of the next id. -/
theorem mute_window {j n : Nat} (hj : j ≤ 10) (hn : 3 ≤ n) (t u : List Char) :
    Mute (((('\n' :: (header ++ t)).drop j) ++ u).take n) := by
  have hclosed : ∀ j ≤ 10, Mute ((('\n' :: header).drop j).take 3) := by decide
  refine (hclosed j hj).mono ?_
  have hle : ('\n' :: header).drop j <+: ('\n' :: (header ++ t)).drop j ++ u := by
    rw [show '\n' :: (header ++ t) = ('\n' :: header) ++ t from rfl,
      List.drop_append_of_le_length (by simp [header]; omega), List.append_assoc]
    exact List.prefix_append _ _
  exact (hle.take 3).trans (List.take_prefix_take_left hn)

/-! ## Rounds

A round of the loop, seen from its result. That the ids which are read back are all the ids means
that each round has added the next of them, since an id that was stored is never changed
(`readLoop_extends`); so the equivalence is proved round by round. -/

section

variable {r : Reader} {fuel : Nat} {ids : List Int}

/-- A round that goes well: at the end of the pipe the ids are all there, and otherwise one comes to
    them. -/
theorem readLoop_succ_eq_some : readLoop (fuel + 1) r = some ids ↔
    (r.block.length = 0 ∧ ids = r.coreIds) ∨
    (r.block.length ≠ 0 ∧ r.block.length ≤ BUFF_LEN ∧ r.coreIds.length < MAX_CORE_IDS ∧
      ∃ id, r.coreId = some id ∧ readLoop fuel (r.store id) = some ids) := by
  rw [readLoop]
  by_cases hend : r.block.length = 0
  · simp [hend, eq_comm]
  by_cases hroom : BUFF_LEN < r.block.length ∨ MAX_CORE_IDS ≤ r.coreIds.length
  · rw [if_neg hend, if_pos hroom]
    refine iff_of_false (by simp) ?_
    rintro (⟨h, -⟩ | ⟨-, hle, hlt, -⟩)
    · exact hend h
    · omega
  · rw [if_neg hend, if_neg hroom, Option.bind_eq_some_iff]
    constructor
    · exact fun h => .inr ⟨hend, by omega, by omega, h⟩
    · rintro (⟨h, -⟩ | ⟨-, -, -, h⟩)
      · exact absurd h hend
      · exact h

/-- An id that was stored stays. Induction on the rounds. -/
theorem readLoop_extends : ∀ {fuel : Nat} {r : Reader}, readLoop fuel r = some ids →
    r.coreIds <+: ids := by
  intro fuel
  induction fuel with
  | zero => exact fun {r} h => absurd h (by simp [readLoop])
  | succ fuel ih =>
    intro r h
    rcases readLoop_succ_eq_some.mp h with ⟨-, rfl⟩ | ⟨-, -, -, id, -, hrest⟩
    · exact List.prefix_refl _
    · exact (List.prefix_append r.coreIds [id]).trans (ih hrest)

/-- One id more, and the rest with it. -/
theorem readLoop_cons {id : Int} (hblock : r.block.length ≠ 0) :
    readLoop (fuel + 1) r = some (r.coreIds ++ id :: ids) ↔
      r.block.length ≤ BUFF_LEN ∧ r.coreIds.length < MAX_CORE_IDS ∧ r.coreId = some id ∧
        readLoop fuel (r.store id) = some ((r.store id).coreIds ++ ids) := by
  have hsplit : r.coreIds ++ id :: ids = (r.store id).coreIds ++ ids := by simp [Reader.store]
  rw [readLoop_succ_eq_some]
  constructor
  · rintro (⟨hend, -⟩ | ⟨-, hle, hlt, id', hid, hrest⟩)
    · exact absurd hend hblock
    · obtain rfl : id' = id := by
        have hpre : r.coreIds ++ [id'] <+: r.coreIds ++ id :: ids := readLoop_extends hrest
        have := (List.prefix_append_right_inj _).mp hpre
        simpa using this
      exact ⟨hle, hlt, hid, hsplit ▸ hrest⟩
  · rintro ⟨hle, hlt, hid, hrest⟩
    exact .inr ⟨hblock, hle, hlt, id, hid, hsplit ▸ hrest⟩

/-- No id more at the end of the pipe only. -/
theorem readLoop_done : readLoop (fuel + 1) r = some r.coreIds ↔ r.block.length = 0 := by
  rw [readLoop_succ_eq_some]
  constructor
  · rintro (⟨hend, -⟩ | ⟨-, -, -, id, -, hrest⟩)
    · exact hend
    · have := (readLoop_extends hrest).length_le
      simp [Reader.store] at this
  · exact fun hend => .inl ⟨hend, rfl⟩

theorem length_filled (hbuff : r.buff.length = BUFF_LEN) (hblock : r.block.length ≤ BUFF_LEN) :
    r.filled.length = BUFF_LEN := by
  rw [Reader.filled, List.length_append, List.length_drop]
  omega

/-- A block that fits the buffer, of the longer blocks. -/
theorem block_eq (hlong : BUFF_LEN ≤ r.numReadBytes) (hblock : r.block.length ≤ BUFF_LEN) :
    r.block = r.cmd.take BUFF_LEN := by
  rw [Reader.block, List.length_take] at hblock
  rw [Reader.block]
  rcases Nat.lt_or_ge BUFF_LEN r.cmd.length with hgt | hle
  · rw [show r.numReadBytes = BUFF_LEN by omega]
  · rw [List.take_of_length_le hle, List.take_of_length_le (by omega)]

theorem store_cmd (hblock : r.block = r.cmd.take BUFF_LEN) (id : Int) :
    (r.store id).cmd = r.cmd.drop BUFF_LEN := by
  show r.cmd.drop r.block.length = _
  rw [hblock, List.length_take]
  rcases Nat.le_total r.cmd.length BUFF_LEN with hle | hge
  · rw [Nat.min_eq_right hle, List.drop_length, List.drop_of_length_le hle]
  · rw [Nat.min_eq_left hge]

/-- What stands from `buff + 10` on: the block, and behind a short block what was there. -/
theorem filled_drop_ten (hbuff : r.buff.length = BUFF_LEN)
    (hblock : r.block = r.cmd.take BUFF_LEN) :
    r.filled.drop 10 = (r.cmd.drop 10 ++ r.buff.drop (max 10 r.cmd.length)).take 4 := by
  unfold BUFF_LEN at hbuff hblock
  rw [Reader.filled, hblock]
  rcases Nat.lt_or_ge r.cmd.length 14 with hlt | hge
  · have hmax : r.cmd.length + (10 - r.cmd.length) = max 10 r.cmd.length := by omega
    rw [List.take_of_length_le (by omega), List.drop_append, List.drop_drop, hmax,
      List.take_of_length_le (by simp; omega)]
  · have hnone : r.buff.drop (r.cmd.take 14).length = [] :=
      List.drop_of_length_le (by simp; omega)
    rw [hnone, List.append_nil, List.drop_take,
      List.take_append_of_le_length (by simp; omega)]

end

/-! ## One id in a block of 14 bytes

A block begins `o` bytes into a line and the number is looked for at its byte 10, so for small `o`
at the end of the header, and for larger ones inside the digits or behind them. The lemmas are the
three cases; what stands behind a short last block is left from the block before (`Stale`). -/

section

variable {r : Reader} {id o : Nat} {ids : List Nat}

theorem isDigit_toDigits {c : Char} (h : c ∈ Nat.toDigits 10 id) : c.isDigit = true :=
  Nat.isDigit_of_mem_toDigits (by decide) (by decide) h

/-- Where the number is read, for a block that starts `o` bytes into the line of `id`. -/
theorem filled_printed (hbuff : r.buff.length = BUFF_LEN)
    (hblock : r.block = r.cmd.take BUFF_LEN) (hcmd : r.cmd = (printed (id :: ids)).drop o) :
    r.filled.drop 10 = ([' '].drop o ++ ((Nat.toDigits 10 id ++ '\n' :: printed ids).drop (o - 1) ++
      r.buff.drop (max 10 r.cmd.length))).take 4 := by
  rw [filled_drop_ten hbuff hblock]
  congr 1
  rw [hcmd, drop_ten_printed, List.drop_append, List.append_assoc]
  rfl

theorem coreId_eq (hbuff : r.buff.length = BUFF_LEN) (hblock : r.block = r.cmd.take BUFF_LEN)
    (hcmd : r.cmd = (printed (id :: ids)).drop o) :
    r.coreId = intAt (([' '].drop o ++ ((Nat.toDigits 10 id ++ '\n' :: printed ids).drop (o - 1) ++
      r.buff.drop (max 10 r.cmd.length))).take 4) :=
  congrArg intAt (filled_printed hbuff hblock hcmd)

theorem isSpace_drop {c : Char} (h : c ∈ [' '].drop o) : isSpace c = true := by
  have hmem := List.mem_of_mem_drop h
  rw [List.mem_singleton] at hmem
  subst hmem
  decide

theorem take_drop_space {n : Nat} (hn : 1 ≤ n) (l : List Char) :
    ([' '].drop o ++ l).take n = [' '].drop o ++ l.take (n - (1 - o)) := by
  rw [List.take_append, List.take_of_length_le (by simp; omega), List.length_drop]
  rfl

/-- Digits up to the end of the buffer. -/
theorem coreId_long (hbuff : r.buff.length = BUFF_LEN) (hblock : r.block = r.cmd.take BUFF_LEN)
    (hcmd : r.cmd = (printed (id :: ids)).drop o) (hlong : o + 2 < width id) :
    r.coreId = none := by
  have hlen : ((Nat.toDigits 10 id).drop (o - 1)).length = width id - (o - 1) :=
    List.length_drop
  rw [coreId_eq hbuff hblock hcmd, take_drop_space (by decide),
    List.drop_append_of_le_length (show o - 1 ≤ width id by omega), List.append_assoc,
    List.take_append_of_le_length (by rw [hlen]; omega)]
  exact intAt_unterminated (fun _ hc => isSpace_drop hc)
    fun _ hc => isDigit_toDigits (List.mem_of_mem_drop (List.mem_of_mem_take hc))

/-- All the digits are in the buffer, and so is the end of the line. -/
theorem coreId_short (hbuff : r.buff.length = BUFF_LEN) (hblock : r.block = r.cmd.take BUFF_LEN)
    (hcmd : r.cmd = (printed (id :: ids)).drop o) (ho : o ≤ 1) (hshort : width id ≤ o + 2) :
    r.coreId = some (id : Int) := by
  have hlen : (Nat.toDigits 10 id).length = width id := rfl
  rw [coreId_eq hbuff hblock hcmd, take_drop_space (by decide), show o - 1 = 0 by omega,
    List.drop_zero, List.append_assoc, List.take_append, List.take_of_length_le (by omega),
    hlen, List.cons_append, show 4 - (1 - o) - width id = (3 - (1 - o) - width id) + 1 by omega,
    List.take_succ_cons, intAt_digits (fun _ hc => isSpace_drop hc) Nat.toDigits_ne_nil
      (fun _ hc => isDigit_toDigits hc) (by omega) (by decide), Nat.ofDigitChars_ten_toDigits]

/-- From the second digit on it is a smaller number. -/
theorem coreId_cut (hbuff : r.buff.length = BUFF_LEN) (hblock : r.block = r.cmd.take BUFF_LEN)
    (hcmd : r.cmd = (printed (id :: ids)).drop o) (ho : 2 ≤ o) (hcut : o ≤ width id) :
    r.coreId ≠ some (id : Int) := by
  by_cases hlong : o + 2 < width id
  · rw [coreId_long hbuff hblock hcmd hlong]
    simp
  set ds := (Nat.toDigits 10 id).drop (o - 1) with hds
  have hlen : ds.length = width id - (o - 1) := List.length_drop
  have hdigit : ∀ c ∈ ds, c.isDigit = true := fun _ hc => isDigit_toDigits (List.mem_of_mem_drop hc)
  have hsmall : Nat.ofDigitChars 10 ds 0 < id :=
    calc Nat.ofDigitChars 10 ds 0
      _ < 10 ^ ds.length := ofDigitChars_lt hdigit
      _ ≤ 10 ^ (width id - 1) := Nat.pow_le_pow_right (by decide) (by omega)
      _ ≤ id := pow_width_le (by omega)
  have hread : r.coreId = some ((Nat.ofDigitChars 10 ds 0 : Nat) : Int) := by
    rw [coreId_eq hbuff hblock hcmd, take_drop_space (by decide),
      List.drop_append_of_le_length (show o - 1 ≤ width id by omega), ← hds, List.append_assoc,
      List.take_append, List.take_of_length_le (by omega), hlen, List.cons_append,
      show 4 - (1 - o) - (width id - (o - 1)) = (3 - (width id - (o - 1))) + 1 by omega,
      List.take_succ_cons]
    exact intAt_digits (fun _ hc => isSpace_drop hc)
      (List.ne_nil_of_length_pos (by omega)) hdigit (by omega) (by decide)
  rw [hread, ne_eq, Option.some.injEq]
  omega

/-- What an earlier round leaves behind a short block: from the end of a line on, the `:` in front
    of the next id comes before the id. -/
structure Stale (o : Nat) (buff : List Char) : Prop where
  newline : 2 ≤ o → o ≤ 12 → Mute (buff.drop 11)
  behind : 3 ≤ o → o ≤ 13 → Mute (buff.drop 10)

theorem drop_digits {j : Nat} (hj : width id ≤ j) (l : List Char) :
    (Nat.toDigits 10 id ++ l).drop j = l.drop (j - width id) := by
  rw [List.drop_append, List.drop_of_length_le hj, List.nil_append]
  rfl

theorem drop_space (ho : 1 ≤ o) : [' '].drop o = [] := List.drop_of_length_le (by simpa using ho)

theorem exists_printed_eq (hne : ids ≠ []) : ∃ t, printed ids = header ++ t := by
  obtain ⟨id, ids, rfl⟩ := List.exists_cons_of_ne_nil hne
  exact ⟨_, printed_cons id ids⟩

/-- Behind the digits nothing is read. -/
theorem coreId_behind (hbuff : r.buff.length = BUFF_LEN) (hblock : r.block = r.cmd.take BUFF_LEN)
    (hcmd : r.cmd = (printed (id :: ids)).drop o) (ho : o ≤ 13) (hbehind : width id < o)
    (hwin : o ≤ width id + 11) (hfour : width id ≤ 4) (hstale : Stale o r.buff) :
    r.coreId = some 0 := by
  have hpos := width_pos id
  rw [coreId_eq hbuff hblock hcmd, drop_space (by omega), List.nil_append,
    drop_digits (by omega)]
  refine intAt_mute ?_
  by_cases hnil : ids = []
  · subst hnil
    have hlen : r.cmd.length = 12 + width id - o := by
      rw [hcmd, List.length_drop, length_printed_cons]
      rfl
    unfold BUFF_LEN at hbuff
    by_cases hend : o - 1 = width id
    · have hmute := hstale.newline (by omega) (by omega)
      rw [hend, Nat.sub_self, List.drop_zero, show max 10 r.cmd.length = 11 by omega,
        List.take_of_length_le (by simp [printed]; omega)]
      exact hmute.cons_space (by decide)
    · have hmute := hstale.behind (by omega) ho
      rw [List.drop_of_length_le (by simp [printed]; omega), List.nil_append,
        show max 10 r.cmd.length = 10 by omega,
        List.take_of_length_le (by simp; omega)]
      exact hmute
  · obtain ⟨t, ht⟩ := exists_printed_eq hnil
    rw [ht]
    exact mute_window (by omega) (by decide) t _

/-- From two bytes into the line on, the id is read when it is 0. -/
theorem coreId_late_iff (hbuff : r.buff.length = BUFF_LEN)
    (hblock : r.block = r.cmd.take BUFF_LEN) (hcmd : r.cmd = (printed (id :: ids)).drop o)
    (ho : 2 ≤ o) (ho' : o ≤ 13) (hwin : o ≤ width id + 11) (hstale : Stale o r.buff) :
    r.coreId = some (id : Int) ↔ id = 0 := by
  constructor
  · intro h
    have hlt : (id : Int).natAbs < 10 ^ 4 :=
      intAt_lt (List.length_take_le _ _) ((coreId_eq hbuff hblock hcmd).symm.trans h)
    have hfour : width id ≤ 4 := (width_le_iff (by decide)).mpr (by simpa using hlt)
    by_cases hcut : o ≤ width id
    · exact absurd h (coreId_cut hbuff hblock hcmd ho hcut)
    · have hzero := coreId_behind hbuff hblock hcmd ho' (by omega) hwin hfour hstale
      rw [hzero, Option.some.injEq] at h
      omega
  · rintro rfl
    exact coreId_behind hbuff hblock hcmd ho' ho hwin (by decide) hstale

/-- A line with one digit leaves its end and the next line. -/
theorem stale_filled (hbuff : r.buff.length = BUFF_LEN) (hblock : r.block = r.cmd.take BUFF_LEN)
    (hcmd : r.cmd = (printed (id :: ids)).drop o) (ho : 1 ≤ o) (hone : width id = 1)
    (hne : ids ≠ []) : Stale (o + 1) r.filled := by
  obtain ⟨t, ht⟩ := exists_printed_eq hne
  have hten := filled_printed hbuff hblock hcmd
  rw [drop_space ho, List.nil_append] at hten
  constructor
  · intro _ ho'
    rw [show r.filled.drop 11 = (r.filled.drop 10).drop 1 by rw [List.drop_drop], hten,
      List.drop_take, List.drop_append_of_le_length (by simp [ht, header]; omega), List.drop_drop,
      drop_digits (by omega), ht]
    exact mute_window (by omega) (by decide) t _
  · intro ho' _
    rw [hten, drop_digits (by omega), ht]
    exact mute_window (by omega) (by decide) t _

/-! ## The ends of the lines

A count of the line ends on both sides: those in the blocks that were read, and one for each line
that was printed. -/

/-- A block that is read has the end of its line in it. Induction on the lines. -/
theorem newline_mem_block (hbuff : r.buff.length = BUFF_LEN)
    (hblock : r.block = r.cmd.take BUFF_LEN) (hread : r.coreId ≠ none) (hcmd : r.cmd ≠ []) :
    ∀ {ids : List Nat}, r.cmd <:+ printed ids → '\n' ∈ r.block := by
  intro ids
  induction ids with
  | nil => exact fun hsuffix => absurd (List.suffix_nil.mp hsuffix) hcmd
  | cons id ids ih =>
    intro hsuffix
    obtain ⟨o, ho⟩ : ∃ o, r.cmd = (printed (id :: ids)).drop o :=
      ⟨_, List.suffix_iff_eq_drop.mp hsuffix⟩
    by_cases hin : o < 12 + width id
    · have hshort : width id ≤ o + 2 := by
        by_contra hlong
        exact hread (coreId_long hbuff hblock ho (by omega))
      have hlen : (header ++ Nat.toDigits 10 id).length = 11 + width id := by
        simp [header, width]
        omega
      have hline : r.cmd = (header ++ Nat.toDigits 10 id).drop o ++ ('\n' :: printed ids) := by
        rw [ho, printed_cons, ← List.append_assoc, List.drop_append_of_le_length (by omega)]
      have hend : r.cmd[11 + width id - o]? = some '\n' := by
        rw [hline, List.getElem?_append_right (by rw [List.length_drop]; omega), List.length_drop,
          hlen, Nat.sub_self]
        rfl
      rw [hblock]
      refine List.mem_of_getElem? (i := 11 + width id - o) ?_
      rw [List.getElem?_take, if_pos (by unfold BUFF_LEN; omega), hend]
    · refine ih ?_
      rw [ho, printed_cons_line, List.drop_append,
        List.drop_of_length_le (by rw [length_line]; omega), List.nil_append]
      exact List.drop_suffix _ _

end

/-- So there are not more ids than ends of lines, for the longer blocks. Induction on the rounds. -/
theorem length_readLoop_le {ids : List Nat} {l : List Int} : ∀ {fuel : Nat} {r : Reader},
    BUFF_LEN ≤ r.numReadBytes → r.buff.length = BUFF_LEN → r.cmd <:+ printed ids →
    readLoop fuel r = some l → l.length ≤ r.coreIds.length + r.cmd.count '\n' := by
  intro fuel
  induction fuel with
  | zero => exact fun {r} _ _ _ h => absurd h (by simp [readLoop])
  | succ fuel ih =>
    intro r hlong hbuff hsuffix h
    rcases readLoop_succ_eq_some.mp h with ⟨-, rfl⟩ | ⟨hend, hle, -, id, hid, hrest⟩
    · omega
    · have hblock := block_eq hlong hle
      have hcmd : r.cmd ≠ [] := by
        intro hnil
        simp [Reader.block, hnil] at hend
      have hmem := newline_mem_block hbuff hblock (by simp [hid]) hcmd hsuffix
      have hstore := store_cmd hblock id
      have hsum : r.cmd.count '\n' = r.block.count '\n' + (r.store id).cmd.count '\n' := by
        rw [hblock, hstore, ← List.count_append, List.take_append_drop]
      have hone : 1 ≤ r.block.count '\n' := List.one_le_count_iff.mpr hmem
      have := ih (by simp only [Reader.store]; split <;> omega) (length_filled hbuff hle)
        (hstore ▸ (List.drop_suffix _ _).trans hsuffix) hrest
      have hids : (r.store id).coreIds.length = r.coreIds.length + 1 := by simp [Reader.store]
      omega

/-! ## After the first 9

Blocks have 14 bytes now. `Ahead` is shown to be sufficient by induction on the lines, and necessary
by the count above.

The offset moves by two bytes less the digits with each line: a line has 12 bytes and its digits,
and a block has 14. With ids of two digits block and line keep step again, with an id of one digit
the block gains a byte, and with longer ids it loses some. -/

/-- The id is read by a block that starts `o` bytes into its line: with `o` of 0 or 1 if its digits
    end in the buffer, from 2 on if it is 0, and with `o` of 13 it is not. -/
def Reads (o id : Nat) : Prop := if o ≤ 1 then width id ≤ o + 2 else o ≤ 12 ∧ id = 0

instance (o id : Nat) : Decidable (Reads o id) := inferInstanceAs (Decidable (ite _ _ _))

/-- The ids that are read when the next block starts `o` bytes into the first line. Behind a 9 there
    is one more at most. -/
def Ahead : Nat → List Nat → Prop
  | _, [] => True
  | o, id :: ids =>
    Reads o id ∧ (id = 9 → ids.length ≤ 1) ∧ Ahead (o + 2 - width id) ids

instance : ∀ (o : Nat) (ids : List Nat), Decidable (Ahead o ids)
  | _, [] => isTrue trivial
  | o, id :: ids =>
    have := instDecidableAhead (o + 2 - width id) ids
    inferInstanceAs (Decidable (_ ∧ _ ∧ _))

/-- Where the reader stands in front of a line that it is `o` bytes ahead in. -/
structure InStep (o : Nat) (r : Reader) : Prop where
  offset : o ≤ 13
  buff : r.buff.length = BUFF_LEN
  long : BUFF_LEN ≤ r.numReadBytes
  /-- a longer block is of use at the start of a line only -/
  longer : BUFF_LEN < r.numReadBytes → o ≤ 2
  stale : Stale o r.buff

section

variable {r : Reader} {id o fuel : Nat} {ids : List Nat}

theorem length_cmd (hcmd : r.cmd = (printed (id :: ids)).drop o) :
    r.cmd.length = 12 + width id + (printed ids).length - o := by
  rw [hcmd, List.length_drop, length_printed_cons]

theorem length_printed_pos (hne : ids ≠ []) : 13 ≤ (printed ids).length := by
  obtain ⟨id, ids, rfl⟩ := List.exists_cons_of_ne_nil hne
  have := width_pos id
  rw [length_printed_cons]
  omega

/-- A line that went by is not made up for. -/
theorem readLoop_gone (h : InStep o r) (hcmd : r.cmd = (printed (id :: ids)).drop o)
    (ho : o = 12 + width id) {l : List Int} (hl : l.length = ids.length + 1) :
    readLoop fuel r ≠ some (r.coreIds ++ l) := by
  intro hread
  have hrest : r.cmd = printed ids := by
    rw [hcmd, printed_cons_line, ho, ← length_line, List.drop_left]
  have hle := @length_readLoop_le ids _ _ _ h.long h.buff (by rw [hrest]) hread
  rw [hrest, count_printed, List.length_append] at hle
  omega

theorem Reads.width_le (h : Reads o id) : width id ≤ o + 2 := by
  unfold Reads at h
  split at h
  · exact h
  · obtain ⟨-, rfl⟩ := h
    exact Nat.le_add_left 1 (o + 1)

/-- A longer block fits the buffer when no other line is left. -/
theorem length_block_le_iff (h : InStep o r) (hcmd : r.cmd = (printed (id :: ids)).drop o)
    (hshort : width id ≤ o + 2) :
    r.block.length ≤ BUFF_LEN ↔ (BUFF_LEN < r.numReadBytes → ids = []) := by
  have hlen := length_cmd hcmd
  have hbytes : r.block.length = min r.numReadBytes r.cmd.length := List.length_take
  constructor
  · intro hle hlonger
    by_contra hne
    have hmore := length_printed_pos hne
    have hpos := width_pos id
    have hoff := h.longer hlonger
    unfold BUFF_LEN at hle hlonger
    omega
  · intro hlast
    by_cases hlonger : BUFF_LEN < r.numReadBytes
    · have hnil : (printed ids).length = 0 := by
        rw [hlast hlonger]
        rfl
      unfold BUFF_LEN
      omega
    · omega

theorem coreId_iff (h : InStep o r) (hcmd : r.cmd = (printed (id :: ids)).drop o)
    (hin : o < 12 + width id) (hle : r.block.length ≤ BUFF_LEN) :
    r.coreId = some (id : Int) ↔ Reads o id := by
  have hblock := block_eq h.long hle
  by_cases hshort : width id ≤ o + 2
  · by_cases ho : o ≤ 1
    · rw [Reads, if_pos ho]
      exact iff_of_true (coreId_short h.buff hblock hcmd ho hshort) hshort
    · rw [Reads, if_neg ho,
        coreId_late_iff h.buff hblock hcmd (by omega) h.offset (by omega) h.stale]
      refine ⟨fun hzero => ⟨?_, hzero⟩, fun hget => hget.2⟩
      have hone : width id = 1 := by
        rw [hzero]
        rfl
      omega
  · rw [coreId_long h.buff hblock hcmd (by omega)]
    exact iff_of_false (by simp) (fun hread => hshort hread.width_le)

/-- One block. -/
theorem block_reads_iff (h : InStep o r) (hcmd : r.cmd = (printed (id :: ids)).drop o)
    (hin : o < 12 + width id) : (r.block.length ≤ BUFF_LEN ∧ r.coreId = some (id : Int)) ↔
      (BUFF_LEN < r.numReadBytes → ids = []) ∧ Reads o id := by
  constructor
  · rintro ⟨hle, hid⟩
    have hread := (coreId_iff h hcmd hin hle).mp hid
    exact ⟨(length_block_le_iff h hcmd hread.width_le).mp hle, hread⟩
  · rintro ⟨hlast, hread⟩
    have hle := (length_block_le_iff h hcmd hread.width_le).mpr hlast
    exact ⟨hle, (coreId_iff h hcmd hin hle).mpr hread⟩

/-- It ends `o + 2 - width id` bytes into the next line. -/
theorem store_printed (hblock : r.block = r.cmd.take BUFF_LEN)
    (hcmd : r.cmd = (printed (id :: ids)).drop o) (hshort : width id ≤ o + 2) (x : Int) :
    (r.store x).cmd = (printed ids).drop (o + 2 - width id) := by
  have hline : (line id).length ≤ o + BUFF_LEN := by
    rw [length_line]
    unfold BUFF_LEN
    omega
  rw [store_cmd hblock, hcmd, List.drop_drop, printed_cons_line, List.drop_append,
    List.drop_of_length_le hline, List.nil_append, length_line]
  congr 1
  unfold BUFF_LEN
  omega

theorem lt_numReadBytes_store (hlong : BUFF_LEN ≤ r.numReadBytes) :
    BUFF_LEN < (r.store id).numReadBytes ↔ BUFF_LEN < r.numReadBytes ∨ id = 9 := by
  simp only [Reader.store]
  split <;> omega

theorem InStep.next (h : InStep o r) (hcmd : r.cmd = (printed (id :: ids)).drop o)
    (hle : r.block.length ≤ BUFF_LEN) (hin : o < 12 + width id) (hread : Reads o id)
    (hne : ids ≠ []) (hlast : BUFF_LEN < r.numReadBytes → ids = []) :
    InStep (o + 2 - width id) (r.store id) := by
  have hpos := width_pos id
  have hlong := h.long
  have hoff := h.offset
  have hone : 2 ≤ o + 2 - width id → 1 ≤ o ∧ width id = 1 := by
    intro htwo
    unfold Reads at hread
    split at hread
    · omega
    · obtain ⟨-, rfl⟩ := hread
      exact ⟨by omega, rfl⟩
  refine ⟨by omega, length_filled h.buff hle, ?_, ?_, ?_⟩
  · simp only [Reader.store]
    split <;> omega
  · intro hlonger
    rcases (lt_numReadBytes_store hlong).mp hlonger with hlonger | rfl
    · exact absurd (hlast hlonger) hne
    · -- a 9 is read with `o` of 0 or 1
      unfold Reads at hread
      split at hread <;> omega
  · by_cases htwo : 2 ≤ o + 2 - width id
    · obtain ⟨ho, hone⟩ := hone htwo
      have hstale := stale_filled h.buff (block_eq hlong hle) hcmd ho hone hne
      rwa [show o + 2 - width id = o + 1 by omega]
    · exact ⟨fun h => absurd h htwo, fun h => by omega⟩

end

/-- **After the first 9.** Induction on the lines, with the number of bytes that the blocks are
    ahead. From the right to the left each line gives its id (`block_reads_iff`). From the left to
    the right a block that does not give the id of its line has already failed, or is one that has
    passed its line over, and for that there are not enough line ends left. -/
theorem readLoop_ahead_iff : ∀ {ids : List Nat} {o fuel : Nat} {r : Reader},
    r.cmd.length < fuel → r.cmd = (printed ids).drop o → (ids ≠ [] → InStep o r) →
    r.coreIds.length + ids.length ≤ MAX_CORE_IDS →
    (readLoop fuel r = some (r.coreIds ++ ids.map fun id : Nat => (id : Int)) ↔
      (BUFF_LEN < r.numReadBytes → ids.length ≤ 1) ∧ Ahead o ids) := by
  intro ids
  induction ids with
  | nil =>
    intro o fuel r hfuel hcmd _ _
    obtain ⟨fuel, rfl⟩ : ∃ n, fuel = n + 1 := ⟨fuel - 1, by omega⟩
    rw [List.map_nil, List.append_nil, readLoop_done]
    exact iff_of_true (by simp [Reader.block, hcmd, printed]) ⟨by simp, trivial⟩
  | cons id ids ih =>
    intro o fuel r hfuel hcmd hstep hroom
    obtain ⟨fuel, rfl⟩ : ∃ n, fuel = n + 1 := ⟨fuel - 1, by omega⟩
    have h := hstep (List.cons_ne_nil _ _)
    have hpos := width_pos id
    have hlen := length_cmd hcmd
    have hlong : 14 ≤ r.numReadBytes := h.long
    by_cases hin : o < 12 + width id
    swap
    · -- the line went by
      have hoff := h.offset
      refine iff_of_false (readLoop_gone h hcmd (by omega) (by simp)) ?_
      rintro ⟨-, hread, -⟩
      rw [Reads, if_neg (by omega)] at hread
      omega
    have hne : r.block.length ≠ 0 := by
      rw [Reader.block, List.length_take]
      omega
    rw [List.map_cons, readLoop_cons hne]
    by_cases hget : r.block.length ≤ BUFF_LEN ∧ r.coreId = some (id : Int)
    swap
    · refine iff_of_false (fun hall => hget ⟨hall.1, hall.2.2.1⟩) ?_
      rintro ⟨hmore, hread, -⟩
      refine hget ((block_reads_iff h hcmd hin).mpr ⟨fun hlonger => ?_, hread⟩)
      have := hmore hlonger
      rw [List.length_cons] at this
      exact List.length_eq_zero_iff.mp (by omega)
    obtain ⟨hle, hid⟩ := hget
    obtain ⟨hlast, hread⟩ := (block_reads_iff h hcmd hin).mp ⟨hle, hid⟩
    have hblock := block_eq h.long hle
    have hroom' : (r.store id).coreIds.length = r.coreIds.length + 1 := by simp [Reader.store]
    rw [List.length_cons] at hroom
    rw [@ih (o + 2 - width id) fuel (r.store id)
      (by rw [store_cmd hblock, List.length_drop]; unfold BUFF_LEN; omega)
      (store_printed hblock hcmd hread.width_le _)
      (fun hnil => h.next hcmd hle hin hread hnil hlast) (by omega), lt_numReadBytes_store h.long]
    constructor
    · rintro ⟨-, -, -, hmore, hahead⟩
      exact ⟨fun hlonger => by rw [hlast hlonger]; rfl, hread, fun hnine => hmore (.inr hnine),
        hahead⟩
    · rintro ⟨-, -, hmore, hahead⟩
      refine ⟨hle, by omega, hid, fun hor => ?_, hahead⟩
      rcases hor with hlonger | hnine
      · rw [hlast hlonger]
        exact Nat.zero_le _
      · exact hmore hnine

/-! ## Up to the first 9

Blocks have 13 bytes and lines with one digit have 13 bytes, so block and line begin together; a
longer id or a 9 ends that.

Nothing has to be carried from line to line here; the two ways out are the 9, behind which the other
equivalence takes over, and an id of two digits that comes too early, whose line end stays in front
of the next block (`readLoop_behind`). -/

/-- The ids that are read back. -/
def Readable : List Nat → Prop
  | [] => True
  | id :: ids => (id < 9 ∧ Readable ids) ∨ (id = 9 ∧ Ahead 0 ids)

instance : ∀ ids : List Nat, Decidable (Readable ids)
  | [] => isTrue trivial
  | _ :: ids =>
    have := instDecidableReadable ids
    inferInstanceAs (Decidable (_ ∧ _ ∨ _ ∧ _))

section

variable {r : Reader} {id : Nat} {ids : List Nat}

theorem length_block_thirteen (hthirteen : r.numReadBytes = 13) (hlen : 13 ≤ r.cmd.length) :
    r.block.length = 13 := by
  rw [Reader.block, List.length_take]
  omega

/-- A block of 13 bytes leaves the last byte of the buffer alone. -/
theorem filled_thirteen (hthirteen : r.numReadBytes = 13) (hlen : 13 ≤ r.cmd.length) :
    r.filled = r.cmd.take 13 ++ r.buff.drop 13 := by
  rw [Reader.filled, length_block_thirteen hthirteen hlen, Reader.block, hthirteen]

theorem filled_drop_thirteen (hthirteen : r.numReadBytes = 13) (hlen : 13 ≤ r.cmd.length) :
    r.filled.drop 13 = r.buff.drop 13 := by
  rw [filled_thirteen hthirteen hlen, List.drop_left' (List.length_take_of_le hlen)]

theorem filled_ten_thirteen (hthirteen : r.numReadBytes = 13) (hlen : 13 ≤ r.cmd.length) :
    r.filled.drop 10 = (r.cmd.drop 10).take 3 ++ r.buff.drop 13 := by
  rw [filled_thirteen hthirteen hlen,
    List.drop_append_of_le_length (by rw [List.length_take]; omega), List.drop_take]

theorem store_thirteen (hthirteen : r.numReadBytes = 13) (hlen : 13 ≤ r.cmd.length) (x : Int) :
    (r.store x).cmd = r.cmd.drop 13 := by
  simp only [Reader.store, length_block_thirteen hthirteen hlen]

/-- Such a block at the start of a line leaves what is behind two bytes of number. -/
theorem store_start (hthirteen : r.numReadBytes = 13) (hcmd : r.cmd = printed (id :: ids))
    (x : Int) : (r.store x).cmd = (Nat.toDigits 10 id ++ '\n' :: printed ids).drop 2 := by
  have hlen : 13 ≤ r.cmd.length := by
    rw [hcmd]
    exact length_printed_pos (List.cons_ne_nil _ _)
  rw [store_thirteen hthirteen hlen, hcmd, printed_cons]
  rfl

theorem numReadBytes_store_of_ne (h : id ≠ 9) : (r.store id).numReadBytes = r.numReadBytes := by
  have hcast : ¬ (id : Int) = 9 := by omega
  simp only [Reader.store, if_neg hcast]

theorem Readable.head_le (h : Readable (id :: ids)) : id ≤ 9 := by
  rcases h with ⟨hlt, -⟩ | ⟨heq, -⟩ <;> omega

theorem readable_cons_of_lt (h : id < 9) : Readable (id :: ids) ↔ Readable ids :=
  ⟨fun hr => hr.elim And.right fun hnine => absurd hnine.1 (by omega), fun hr => .inl ⟨h, hr⟩⟩

theorem readable_nine : Readable (9 :: ids) ↔ Ahead 0 ids :=
  ⟨fun hr => hr.elim (fun hlt => absurd hlt.1 (by decide)) And.right, fun hr => .inr ⟨rfl, hr⟩⟩

/-- A block at the start of a line has two digits at most. -/
theorem coreId_thirteen_iff (hthirteen : r.numReadBytes = 13) (hlast : r.buff.drop 13 = [NUL])
    (hcmd : r.cmd = printed (id :: ids)) : r.coreId = some (id : Int) ↔ width id ≤ 2 := by
  have hpos := width_pos id
  have hlen : 13 ≤ r.cmd.length := by
    rw [hcmd]
    exact length_printed_pos (List.cons_ne_nil _ _)
  have hten : r.cmd.drop 10 = [' '] ++ (Nat.toDigits 10 id ++ '\n' :: printed ids) := by
    rw [hcmd, printed_cons]
    rfl
  have htail : r.coreId = intAt ([' '] ++
      ((Nat.toDigits 10 id ++ '\n' :: printed ids).take 2 ++ [NUL])) := by
    show intAt _ = _
    rw [filled_ten_thirteen hthirteen hlen, hten, hlast]
    rfl
  have hspace : ∀ c ∈ [' '], isSpace c = true := by simp [isSpace]
  have hdigits : ∀ c ∈ (Nat.toDigits 10 id).take 2, c.isDigit = true := fun _ hc =>
    isDigit_toDigits (List.mem_of_mem_take hc)
  have hlen2 : ((Nat.toDigits 10 id).take 2).length = min 2 (width id) := List.length_take
  rcases Nat.lt_or_ge (width id) 2 with hone | htwo
  · refine iff_of_true ?_ (by omega)
    have htake : (Nat.toDigits 10 id ++ '\n' :: printed ids).take 2 =
        Nat.toDigits 10 id ++ ['\n'] := by
      have hwidth : (Nat.toDigits 10 id).length = 1 := by
        show width id = 1
        omega
      rw [List.take_append, List.take_of_length_le (by omega), hwidth]
      rfl
    rw [htail, htake, List.append_assoc]
    exact (intAt_digits hspace Nat.toDigits_ne_nil (fun _ hc => isDigit_toDigits hc)
      (show width id ≤ 4 by omega) (by decide)).trans (by rw [Nat.ofDigitChars_ten_toDigits])
  · rw [List.take_append_of_le_length htwo] at htail
    rw [htail, intAt_digits hspace (List.ne_nil_of_length_pos (by omega)) hdigits (by omega)
      (by decide), Option.some.injEq, Int.ofNat_inj]
    constructor
    · intro heq
      have hlt := ofDigitChars_lt hdigits
      rw [heq, hlen2, Nat.min_eq_left htwo] at hlt
      exact (width_le_iff (by decide)).mpr hlt
    · intro hle
      rw [List.take_of_length_le hle, Nat.ofDigitChars_ten_toDigits]

end

/-- The end of a line that a block of 13 bytes left behind stays in the way. Induction on the
    lines. -/
theorem readLoop_behind : ∀ {ids : List Nat} {fuel : Nat} {r : Reader}, r.numReadBytes = 13 →
    r.cmd = '\n' :: printed ids →
    readLoop fuel r ≠ some (r.coreIds ++ ids.map fun id : Nat => (id : Int)) := by
  intro ids
  induction ids with
  | nil =>
    intro fuel r hthirteen hcmd h
    cases fuel with
    | zero => exact absurd h (by simp [readLoop])
    | succ fuel =>
      rw [List.map_nil, List.append_nil, readLoop_done] at h
      simp [Reader.block, hthirteen, hcmd] at h
  | cons id ids ih =>
    intro fuel r hthirteen hcmd h
    cases fuel with
    | zero => exact absurd h (by simp [readLoop])
    | succ fuel =>
      have hmore := @length_printed_pos (id :: ids) (List.cons_ne_nil _ _)
      have hlen : 13 ≤ r.cmd.length := by
        rw [hcmd, List.length_cons]
        omega
      have hblock := length_block_thirteen hthirteen hlen
      rw [List.map_cons, readLoop_cons (by omega)] at h
      obtain ⟨-, -, hid, hrest⟩ := h
      have hzero : r.coreId = some 0 := by
        refine intAt_mute ?_
        have hwin := mute_window (le_refl 10) (le_refl 3)
          (Nat.toDigits 10 id ++ '\n' :: printed ids) []
        rw [List.append_nil, ← printed_cons, ← hcmd] at hwin
        rw [filled_ten_thirteen hthirteen hlen]
        exact hwin.mono (List.prefix_append _ _)
      obtain rfl : id = 0 := by
        rw [hzero, Option.some.injEq] at hid
        omega
      refine ih ?_ ?_ hrest
      · simp [Reader.store, hthirteen]
      · rw [store_thirteen hthirteen hlen, hcmd, printed_cons]
        rfl

/-- **Up to the first 9.** Induction on the lines. -/
theorem readLoop_readable_iff : ∀ {ids : List Nat} {fuel : Nat} {r : Reader},
    r.cmd.length < fuel → r.cmd = printed ids → r.numReadBytes = 13 →
    r.buff.length = BUFF_LEN → r.buff.drop 13 = [NUL] →
    r.coreIds.length + ids.length ≤ MAX_CORE_IDS →
    (readLoop fuel r = some (r.coreIds ++ ids.map fun id : Nat => (id : Int)) ↔ Readable ids) := by
  intro ids
  induction ids with
  | nil =>
    intro fuel r hfuel hcmd _ _ _ _
    obtain ⟨fuel, rfl⟩ : ∃ n, fuel = n + 1 := ⟨fuel - 1, by omega⟩
    rw [List.map_nil, List.append_nil, readLoop_done]
    exact iff_of_true (by simp [Reader.block, hcmd, printed]) trivial
  | cons id ids ih =>
    intro fuel r hfuel hcmd hthirteen hbuff hlast hroom
    obtain ⟨fuel, rfl⟩ : ∃ n, fuel = n + 1 := ⟨fuel - 1, by omega⟩
    have hlen : 13 ≤ r.cmd.length := by
      rw [hcmd]
      exact length_printed_pos (List.cons_ne_nil _ _)
    have hblock := length_block_thirteen hthirteen hlen
    have hle : r.block.length ≤ BUFF_LEN := by
      unfold BUFF_LEN
      omega
    have hstart := store_start hthirteen hcmd (id : Int)
    have hdrop : (r.store id).cmd.length < fuel := by
      rw [store_thirteen hthirteen hlen, List.length_drop]
      omega
    have hbuff' : (r.store id).buff.length = BUFF_LEN := length_filled hbuff hle
    have hroom' : (r.store id).coreIds.length = r.coreIds.length + 1 := by simp [Reader.store]
    rw [List.length_cons] at hroom
    rw [List.map_cons, readLoop_cons (by omega), coreId_thirteen_iff hthirteen hlast hcmd]
    by_cases hten : id < 10
    swap
    · refine iff_of_false ?_ fun hr => hten (by have := hr.head_le; omega)
      rintro ⟨-, -, htwo, hrest⟩
      -- the end of the line is left
      have hwidth : width id = 2 := by
        have hpos := width_pos id
        have hone := @width_eq_one_iff id
        omega
      refine readLoop_behind ((numReadBytes_store_of_ne (by omega)).trans hthirteen) ?_ hrest
      rw [hstart, drop_digits (by omega), hwidth]
      rfl
    -- the line is one block
    have hone : width id = 1 := width_eq_one_iff.mpr hten
    have hnext : (r.store id).cmd = printed ids := by
      rw [hstart, drop_digits (by omega), hone]
      rfl
    by_cases hnine : id = 9
    · subst hnine
      have hlonger : (r.store (9 : Nat)).numReadBytes = BUFF_LEN := by
        simp [Reader.store, hthirteen, BUFF_LEN]
      rw [readable_nine, @readLoop_ahead_iff ids 0 fuel (r.store (9 : Nat)) hdrop hnext
        (fun _ => ⟨by omega, hbuff', by omega, fun h => by omega, fun h => by omega,
          fun h => by omega⟩) (by omega)]
      exact ⟨fun h => h.2.2.2.2, fun hr => ⟨hle, by omega, by omega, fun h => by omega, hr⟩⟩
    · rw [readable_cons_of_lt (by omega), ih hdrop hnext
        ((numReadBytes_store_of_ne hnine).trans hthirteen) hbuff'
        ((filled_drop_thirteen hthirteen hlen).trans hlast) (by omega)]
      exact ⟨fun h => h.2.2.2, fun hr => ⟨hle, by omega, by omega, hr⟩⟩

/-- **Reading undoes printing** for the lists that keep step with the blocks, and for no others.
    `Readable` goes through the list once and carries the offset at which the next block starts in
    its line; it is decidable. -/
theorem core_ids_read_iff {ids : List Nat} (hlen : ids.length ≤ MAX_CORE_IDS) :
    readCoreIds (printed ids) = some (ids.map fun id : Nat => (id : Int)) ↔ Readable ids := by
  exact @readLoop_readable_iff ids _ ⟨printed ids, List.replicate BUFF_LEN NUL, [], 13⟩
    (Nat.lt_succ_self _) rfl rfl (List.length_replicate ..) rfl (by simpa using hlen)

/-- Twelve cores, one processor each: they keep step, so they are read back. -/
theorem core_ids_read_twelve :
    readCoreIds (printed [0, 1, 2, 3, 4, 5, 6, 7, 8, 9, 10, 11]) =
      some ([0, 1, 2, 3, 4, 5, 6, 7, 8, 9, 10, 11].map fun id : Nat => (id : Int)) := by
  have hkeep : Readable [0, 1, 2, 3, 4, 5, 6, 7, 8, 9, 10, 11] := by decide
  exact (core_ids_read_iff (by decide)).mpr hkeep

/-- Ten cores with two processors each, as hyper-threading lists them: from the first 9 on the
    blocks are a byte longer than the lines. -/
theorem core_ids_hyper_threading : ¬ ∀ ids : List Nat, ids.length ≤ MAX_CORE_IDS →
    readCoreIds (printed ids) = some (ids.map fun id : Nat => (id : Int)) := by
  intro hall
  have hlen : (List.range 10 ++ List.range 10).length ≤ MAX_CORE_IDS := by decide
  have hnot : ¬ Readable (List.range 10 ++ List.range 10) := by decide
  have hread := hall _ hlen
  generalize List.range 10 ++ List.range 10 = ids at hlen hnot hread
  exact hnot ((@readLoop_readable_iff ids _ ⟨printed ids, List.replicate BUFF_LEN NUL, [], 13⟩
    (Nat.lt_succ_self _) rfl rfl (List.length_replicate ..) rfl (by simpa using hlen)).mp hread)

/-- There are ids when the query prints anything. -/
theorem readCoreIds_eq_nil {output : List Char} {ids : List Int}
    (h : readCoreIds output = some ids) : ids = [] ↔ output = [] := by
  rcases readLoop_succ_eq_some.mp h with ⟨hend, rfl⟩ | ⟨hend, -, -, id, -, hrest⟩
  · have hnil : output.take 13 = [] := List.length_eq_zero_iff.mp hend
    simpa using hnil
  · refine iff_of_false ?_ ?_
    · rintro rfl
      exact absurd (List.eq_nil_of_prefix_nil (readLoop_extends hrest)) (by simp [Reader.store])
    · rintro rfl
      exact hend rfl

end CompTech.Network
