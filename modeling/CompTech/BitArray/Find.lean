import CompTech.Lib.First
import CompTech.BitArray.Touched

/-!
# The find functions

Both find functions are one search with a different eye for a word: `bit_array_find_set_bit`
takes words as they are, `bit_array_find_clear_bit` complements them. `find_dual` says that this
is all there is between them, and bounds the rounds of the loop.

The mask of the first word is meant to hide the places below `start`. It hides the top
`start mod 64` places of the word instead (`Visible`): places below `start` are reported, and
places of the first word are overlooked. `find_first_iff` says which arrays do not show it.

The loop is treated once, for any `view` and any first word (`findLoop_isFirst`). It is a search of
`Lib.First` over the positions it can see; `isFirst_iff_hidden` of the library then compares it with
the search that was meant.
-/

namespace CompTech.BitArray

open MyBitArray

/-! ## One search

The two functions with the number of rounds as an argument, so that the bound on the rounds can be
stated: the code's own loop has no such argument. -/

/-- A find function whose loop is given that many rounds. -/
def bitArrayFindWithin (view : Word → Word) (first : Word → Word → Word) (rounds : Nat)
    (a : MyBitArray) (start : Word) : Option (Option Word) :=
  if start > a.numOfBits then some none
  else do
    let iWord := numbOfWord64 start
    let w ← readWord a.buffBits iWord
    let mask ← bitMask64 (indxInWord64 start)
    findLoop view a rounds iWord (first w mask)

/-- `bit_array_find_set_bit` with the number of rounds as an argument. -/
def bitArrayFindSetWithin : Nat → MyBitArray → Word → Option (Option Word) :=
  bitArrayFindWithin id fun w mask => w &&& ~~~mask

/-- And its sibling. -/
def bitArrayFindClearWithin : Nat → MyBitArray → Word → Option (Option Word) :=
  bitArrayFindWithin (~~~ ·) fun w mask => ~~~(w ||| mask)

theorem bitArrayFindSetBit_eq (a : MyBitArray) (start : Word) :
    bitArrayFindSetBit a start = bitArrayFindSetWithin (a.numOfWords.toNat + 1) a start := rfl

theorem bitArrayFindClearBit_eq (a : MyBitArray) (start : Word) :
    bitArrayFindClearBit a start = bitArrayFindClearWithin (a.numOfWords.toNat + 1) a start := rfl

/-- The search is for bits with the value `v`. -/
structure LooksFor (view : Word → Word) (first : Word → Word → Word) (v : Bool) : Prop where
  view : ∀ w k, k < 64 → (view w).getLsbD k = (w.getLsbD k == v)
  first : ∀ w m k, k < 64 → (first w m).getLsbD k = ((w.getLsbD k == v) && !m.getLsbD k)

theorem findSet_looksFor : LooksFor id (fun w mask => w &&& ~~~mask) true where
  view w k _ := by simp
  first w m k hk := by simp [hk]

theorem findClear_looksFor : LooksFor (~~~ ·) (fun w mask => ~~~(w ||| mask)) false where
  view w k hk := by simp [hk]
  first w m k hk := by simp [hk]

/-! ## A round of the loop

A round looks at one word. `ffsll` finds its lowest set bit; if that position is not below the size,
there is no match in this word at all, and the loop goes on to the next. -/

theorem ffsll_spec {w : Word} (h : w ≠ 0) : ∃ k, k < 64 ∧ ffsll w = k + 1 ∧
    w.getLsbD k = true ∧ ∀ j, j < k → w.getLsbD j = false := by
  unfold ffsll
  cases hfind : (List.range 64).find? (w.getLsbD ·) with
  | none =>
    refine absurd (BitVec.eq_of_getLsbD_eq fun i hi => ?_) h
    have hclear := List.find?_range_eq_none.mp hfind i hi
    rw [Bool.not_eq_true'] at hclear
    rw [hclear]
    exact BitVec.getLsbD_zero.symm
  | some k =>
    obtain ⟨hbit, hk, hbefore⟩ := List.find?_range_eq_some.mp hfind
    refine ⟨k, List.mem_range.mp hk, rfl, hbit, fun j hj => ?_⟩
    have hclear := hbefore j hj
    rwa [Bool.not_eq_true'] at hclear

/-- What the search sees at position `i` when its loop has come to word `j`. -/
def scanned (view : Word → Word) (a : MyBitArray) (j : Nat) (curWord : Word) (i : Nat) : Bool :=
  if i / 64 = j then curWord.getLsbD (i % 64)
  else (view (a.buffBits.getD (i / 64) 0)).getLsbD (i % 64)

section Loop

variable {view : Word → Word} {a : MyBitArray} {iWord curWord : Word}

theorem toNat_findPos {k : Nat} (hi : iWord.toNat < 2 ^ 58) (hk : k < 64) :
    (iWord * WORD_SIZE + BitVec.ofNat 64 (k + 1) - 1).toNat = 64 * iWord.toNat + k := by
  have hone : (1 : Word).toNat = 1 := rfl
  rw [BitVec.toNat_sub, BitVec.toNat_add, BitVec.toNat_mul, BitVec.toNat_ofNat, toNat_WORD_SIZE,
    hone]
  omega

theorem lt_numOfWords_small (ha : a.WordsOk) (hi : iWord.toNat < a.numOfWords.toNat) :
    iWord.toNat < 2 ^ 58 := by
  have hwords := ha.words
  have hbits := a.numOfBits.isLt
  omega

/-- A round that answers has found the first match of its word. -/
theorem scanned_found (ha : a.WordsOk) (hi : iWord.toNat < a.numOfWords.toNat)
    (hcur : curWord > 0)
    (hpos : iWord * WORD_SIZE + BitVec.ofNat 64 (ffsll curWord) - 1 < a.numOfBits) :
    Lib.IsFirst (fun i => scanned view a iWord.toNat curWord i = true) (64 * iWord.toNat)
      a.numOfBits.toNat
      (some (iWord * WORD_SIZE + BitVec.ofNat 64 (ffsll curWord) - 1).toNat) := by
  have hne : curWord ≠ 0 := by
    rintro rfl
    exact Nat.lt_irrefl _ hcur
  obtain ⟨k, hk, hffs, hbit, hbefore⟩ := ffsll_spec hne
  have hpos' : (iWord * WORD_SIZE + BitVec.ofNat 64 (ffsll curWord) - 1).toNat <
    a.numOfBits.toNat := hpos
  rw [hffs, toNat_findPos (lt_numOfWords_small ha hi) hk] at hpos' ⊢
  refine ⟨by omega, hpos', ?_, fun j hj hlt => ?_⟩
  · show scanned view a iWord.toNat curWord (64 * iWord.toNat + k) = true
    rw [scanned, if_pos (by omega), show (64 * iWord.toNat + k) % 64 = k by omega]
    exact hbit
  · show ¬scanned view a iWord.toNat curWord j = true
    rw [scanned, if_pos (by omega), hbefore (j % 64) (by omega)]
    exact Bool.false_ne_true

/-- A round that goes on has no match in its word. -/
theorem scanned_none (ha : a.WordsOk) (hi : iWord.toNat < a.numOfWords.toNat)
    (hround : ¬(curWord > 0 ∧
      iWord * WORD_SIZE + BitVec.ofNat 64 (ffsll curWord) - 1 < a.numOfBits)) {i : Nat}
    (hword : i / 64 = iWord.toNat) (hlt : i < a.numOfBits.toNat) :
    ¬scanned view a iWord.toNat curWord i = true := by
  intro hseen
  rw [scanned, if_pos hword] at hseen
  have hne : curWord ≠ 0 := by
    rintro rfl
    have hzero : (0 : Word).getLsbD (i % 64) = false := BitVec.getLsbD_zero
    exact Bool.noConfusion (hzero.symm.trans hseen)
  obtain ⟨k, hk, hffs, hbit, hbefore⟩ := ffsll_spec hne
  refine hround ⟨toNat_pos_of_ne_zero hne, ?_⟩
  show (iWord * WORD_SIZE + BitVec.ofNat 64 (ffsll curWord) - 1).toNat < a.numOfBits.toNat
  rw [hffs, toNat_findPos (lt_numOfWords_small ha hi) hk]
  have hle : k ≤ i % 64 := by
    by_contra hgt
    exact Bool.noConfusion ((hbefore _ (Nat.lt_of_not_le hgt)).symm.trans hseen)
  omega

/-- **The loop.** With a round for every word that is left it ends, and it answers the first
    position it sees. Induction on the rounds that are left. -/
theorem findLoop_isFirst (ha : a.WordsOk) : ∀ (rounds : Nat) (iWord curWord : Word),
    iWord.toNat < a.numOfWords.toNat → a.numOfWords.toNat ≤ iWord.toNat + rounds →
    ∃ r, findLoop view a rounds iWord curWord = some r ∧
      Lib.IsFirst (fun i => scanned view a iWord.toNat curWord i = true) (64 * iWord.toNat)
        a.numOfBits.toNat (r.map BitVec.toNat) := by
  intro rounds
  induction rounds with
  | zero => intro iWord _ hi hle; exact absurd hi (Nat.not_lt_of_le hle)
  | succ rounds ih =>
    intro iWord curWord hi hle
    have hwords := ha.words
    unfold findLoop
    dsimp only
    split
    · rename_i hround
      exact ⟨_, rfl, scanned_found ha hi hround.1 hround.2⟩
    · rename_i hround
      have hone : (1 : Word).toNat = 1 := rfl
      have hsmall := lt_numOfWords_small ha hi
      have hnext : (iWord + 1).toNat = iWord.toNat + 1 := by
        rw [BitVec.toNat_add, hone]
        omega
      split
      · -- that was the last word
        rename_i hend
        have hend' : a.numOfWords.toNat ≤ (iWord + 1).toNat := hend
        refine ⟨none, rfl, fun i hlo hhi => scanned_none ha hi hround ?_ hhi⟩
        omega
      · rename_i hin
        have hin' : (iWord + 1).toNat < a.numOfWords.toNat := Nat.lt_of_not_le hin
        have hfits := ha.fits
        have halloc := ha.alloc
        rw [readWord_of_lt (by omega), Option.bind_some]
        obtain ⟨r, hr, hfirst⟩ := ih (iWord + 1) (view (a.buffBits.getD (iWord + 1).toNat 0)) hin'
          (by omega)
        have hbelow : 64 * iWord.toNat ≤ 64 * (iWord + 1).toNat := by omega
        refine ⟨r, hr, Lib.IsFirst.skip hbelow
          (fun i hlo hlt hhi => scanned_none ha hi hround (by omega) hhi) ?_⟩
        refine hfirst.congr fun i hlo _ => ?_
        unfold scanned
        rw [if_neg (show ¬i / 64 = iWord.toNat by omega)]
        split
        · rename_i hword
          rw [← hword]
        · rfl

end Loop

/-! ## What the search sees

In the words behind the first one everything is seen. In the first word the mask decides
(`Visible`). -/

/-- The mask of the first word hides its top `p % 64` places. -/
def Visible (p i : Nat) : Prop := i / 64 = p / 64 → p % 64 + i % 64 < 64

instance (p i : Nat) : Decidable (Visible p i) := inferInstanceAs (Decidable (_ → _))

section Search

variable {view : Word → Word} {first : Word → Word → Word} {v : Bool} {a : MyBitArray}
  {start : Word} {rounds : Nat}

theorem LooksFor.scanned_iff (h : LooksFor view first v) {i : Nat} :
    scanned view a (start.toNat / 64)
        (first (a.buffBits.getD (start.toNat / 64) 0) (topBits (start.toNat % 64))) i = true ↔
      a.bit i = v ∧ Visible start.toNat i := by
  have hk : i % 64 < 64 := Nat.mod_lt _ (by omega)
  unfold scanned Visible MyBitArray.bit
  by_cases hword : i / 64 = start.toNat / 64
  · rw [if_pos hword, h.first _ _ _ hk, getLsbD_topBits (by omega) hk, hword]
    simp only [Bool.and_eq_true, beq_iff_eq, Bool.not_eq_true', decide_eq_false_iff_not,
      forall_const, Nat.not_le]
  · rw [if_neg hword, h.view _ _ hk]
    simp only [beq_iff_eq, hword, false_implies, and_true]

/-- A find function answers the first visible position with the value, from the beginning of the
    word of `start` on; a round for each word is enough. -/
theorem LooksFor.find_isFirst (h : LooksFor view first v) (ha : a.WordsOk)
    (hs : start < a.numOfBits) (hrounds : a.numOfWords.toNat ≤ start.toNat / 64 + rounds) :
    ∃ r, bitArrayFindWithin view first rounds a start = some r ∧
      Lib.IsFirst (fun i => a.bit i = v ∧ Visible start.toNat i) (64 * (start.toNat / 64))
        a.numOfBits.toNat (r.map BitVec.toNat) := by
  have hlt := ha.index_lt hs
  have hfits := ha.fits
  have halloc := ha.alloc
  have hdiv := toNat_numbOfWord64 start
  obtain ⟨r, hr, hfirst⟩ := findLoop_isFirst ha rounds (numbOfWord64 start)
    (first (a.buffBits.getD (start.toNat / 64) 0) (topBits (start.toNat % 64)))
    (by rw [hdiv]; exact hlt) (by rw [hdiv]; exact hrounds)
  refine ⟨r, ?_, ?_⟩
  · have hin : ¬start > a.numOfBits := Nat.not_lt_of_lt hs
    rw [bitArrayFindWithin, if_neg hin]
    dsimp only
    rw [readWord_of_lt (by rw [hdiv]; omega), bitMask64_indx, hdiv]
    exact hr
  · rw [hdiv] at hfirst
    exact hfirst.congr fun i _ _ => h.scanned_iff

end Search

/-! ## The first match -/

/-- The answer of a find function: the first position from `start` on that holds `v`. -/
def FindsFirst (v : Bool) (a : MyBitArray) (start : Word) (answer : Option (Option Word)) :
    Prop :=
  ∃ r, answer = some r ∧
    Lib.IsFirst (fun i => a.bit i = v) start.toNat a.numOfBits.toNat (r.map BitVec.toNat)

/-- The mask does no harm: no position in front of `start` that it leaves visible holds `v`, and
    in front of every hidden one that does there is a visible one from `start` on. -/
structure Unharmed (v : Bool) (a : MyBitArray) (start : Nat) : Prop where
  front : ∀ i, 64 * (start / 64) ≤ i → i < start → a.bit i = v → ¬Visible start i
  hidden : ∀ i, start ≤ i → i < a.numOfBits.toNat → a.bit i = v → ¬Visible start i →
    ∃ j, start ≤ j ∧ j < i ∧ a.bit j = v ∧ Visible start j

theorem LooksFor.findsFirst_iff {view : Word → Word} {first : Word → Word → Word} {v : Bool}
    {a : MyBitArray} {start : Word} {rounds : Nat} (h : LooksFor view first v) (ha : a.WordsOk)
    (hs : start < a.numOfBits) (hrounds : a.numOfWords.toNat ≤ start.toNat / 64 + rounds) :
    FindsFirst v a start (bitArrayFindWithin view first rounds a start) ↔
      Unharmed v a start.toNat := by
  obtain ⟨r, hr, hfirst⟩ := h.find_isFirst ha hs hrounds
  have hs' : start.toNat < a.numOfBits.toNat := hs
  have hbelow : 64 * (start.toNat / 64) ≤ start.toNat := by omega
  have hiff := Lib.isFirst_iff_hidden hbelow hfirst
  constructor
  · rintro ⟨r', hr', hright⟩
    rw [hr, Option.some.injEq] at hr'
    obtain ⟨hfront, hhidden⟩ := hiff.mp (hr' ▸ hright)
    exact ⟨fun i hlo hlt hp => hfront i hlo hlt (hlt.trans hs') hp, hhidden⟩
  · intro hun
    exact ⟨r, hr, hiff.mpr ⟨fun i hlo hlt _ hp => hun.front i hlo hlt hp, hun.hidden⟩⟩

/-- **Where the find functions return the first match.** The loop is a search that looks at whole
    words. What is masked out of the first word are the highest places and not the ones below
    `start`, so some positions in front of it are seen, and some behind it are not. -/
theorem find_first_iff {a : MyBitArray} {start : Word} (ha : a.WordsOk)
    (hs : start < a.numOfBits) :
    (FindsFirst true a start (bitArrayFindSetBit a start) ↔ Unharmed true a start.toNat) ∧
      (FindsFirst false a start (bitArrayFindClearBit a start) ↔
        Unharmed false a start.toNat) :=
  ⟨findSet_looksFor.findsFirst_iff ha hs (by omega),
    findClear_looksFor.findsFirst_iff ha hs (by omega)⟩

/-- From the beginning of a word nothing is hidden. -/
theorem Unharmed.of_wordStart {v : Bool} {a : MyBitArray} {start : Nat} (h : start % 64 = 0) :
    Unharmed v a start where
  front i hlo hlt _ := by omega
  hidden i _ _ _ hhidden := absurd (fun _ => by omega) hhidden

/-- The search of the tests. -/
theorem find_first_tests :
    FindsFirst true ⟨150, 3, 4, [8, 0, 0, 0]⟩ 0 (bitArrayFindSetBit ⟨150, 3, 4, [8, 0, 0, 0]⟩ 0) ∧
    FindsFirst false ⟨150, 3, 4, [8, 0, 0, 0]⟩ 0
      (bitArrayFindClearBit ⟨150, 3, 4, [8, 0, 0, 0]⟩ 0) := by
  have hok : (⟨150, 3, 4, [8, 0, 0, 0]⟩ : MyBitArray).WordsOk :=
    ⟨by decide, by decide, by decide⟩
  have hiff := find_first_iff hok (show (0 : Word) < 150 by decide)
  exact ⟨hiff.1.mpr (.of_wordStart rfl), hiff.2.mpr (.of_wordStart rfl)⟩

/-- `bit_array_find_set_bit (ba, 1, &result)` reports position 0. The position is in front of
    `start`. -/
theorem find_in_front : ¬ ∀ (a : MyBitArray) (start : Word), a.WordsOk → start < a.numOfBits →
    FindsFirst true a start (bitArrayFindSetBit a start) ∧
      FindsFirst false a start (bitArrayFindClearBit a start) := by
  intro hall
  obtain ⟨r, hr, hfirst⟩ := (hall ⟨150, 3, 4, [1, 0, 0, 0]⟩ 1 ⟨by decide, by decide, by decide⟩
    (by decide)).1
  have hrun : bitArrayFindSetBit ⟨150, 3, 4, [1, 0, 0, 0]⟩ 1 = some (some 0) := by decide
  rw [hrun, Option.some.injEq] at hr
  rw [← hr] at hfirst
  exact absurd hfirst.1 (by decide)

/-! ## The two are dual -/

/-- Every word of the buffer complemented. -/
def MyBitArray.complement (a : MyBitArray) : MyBitArray :=
  { a with buffBits := a.buffBits.map (~~~ ·) }

theorem MyBitArray.WordsOk.complement {a : MyBitArray} (ha : a.WordsOk) : a.complement.WordsOk :=
  ⟨ha.words, ha.fits, by simpa [MyBitArray.complement] using ha.alloc⟩

theorem readWord_complement (a : MyBitArray) (i : Word) :
    readWord a.complement.buffBits i = (readWord a.buffBits i).map (~~~ ·) := by
  rw [readWord, readWord, MyBitArray.complement, List.getElem?_map]

/-- Induction on the rounds: the two loops go hand in hand. -/
theorem findLoop_complement (a : MyBitArray) : ∀ (rounds : Nat) (iWord curWord : Word),
    findLoop (~~~ ·) a rounds iWord curWord = findLoop id a.complement rounds iWord curWord := by
  intro rounds
  induction rounds with
  | zero => intro _ _; rfl
  | succ rounds ih =>
    intro iWord curWord
    have hbits : a.complement.numOfBits = a.numOfBits := rfl
    have hwords : a.complement.numOfWords = a.numOfWords := rfl
    rw [findLoop, findLoop, hbits, hwords]
    dsimp only
    rw [readWord_complement]
    split
    · rfl
    · split
      · rfl
      · cases readWord a.buffBits (iWord + 1) with
        | none => rfl
        | some w => exact ih _ _

theorem findWithin_complement (rounds : Nat) (a : MyBitArray) (start : Word) :
    bitArrayFindClearWithin rounds a start = bitArrayFindSetWithin rounds a.complement start := by
  have hbits : a.complement.numOfBits = a.numOfBits := rfl
  rw [bitArrayFindClearWithin, bitArrayFindSetWithin, bitArrayFindWithin, bitArrayFindWithin,
    hbits]
  dsimp only
  rw [readWord_complement]
  split
  · rfl
  · cases readWord a.buffBits (numbOfWord64 start) with
    | none => rfl
    | some w =>
      simp only [Option.map_some, Option.bind_eq_bind, Option.bind_some, findLoop_complement,
        BitVec.not_or]

/-- Once there is a round for every word, more rounds change nothing. -/
theorem LooksFor.find_rounds {view : Word → Word} {first : Word → Word → Word} {v : Bool}
    {a : MyBitArray} {start : Word} {m n : Nat} (h : LooksFor view first v) (ha : a.WordsOk)
    (hs : start < a.numOfBits) (hm : a.numOfWords.toNat ≤ start.toNat / 64 + m)
    (hn : a.numOfWords.toNat ≤ start.toNat / 64 + n) :
    ∃ r, bitArrayFindWithin view first m a start = some r ∧
      bitArrayFindWithin view first n a start = some r := by
  obtain ⟨r, hr, hfirst⟩ := h.find_isFirst ha hs hm
  obtain ⟨r', hr', hfirst'⟩ := h.find_isFirst ha hs hn
  have hmap : r.map BitVec.toNat = r'.map BitVec.toNat := hfirst.unique hfirst'
  have heq : r = r' := Option.map_injective (fun _ _ => BitVec.eq_of_toNat_eq) hmap
  exact ⟨r, hr, heq ▸ hr'⟩

/-- **The two find functions are dual.** Looking for a clear bit is looking for a set bit in the
    complement; both functions answer, and their loops end within a round for each word from that of
    `start` on. The mask of the first word is the same in both, and so is its defect. -/
theorem find_dual {a : MyBitArray} {start : Word} (ha : a.WordsOk) (hs : start < a.numOfBits) :
    ∃ r, bitArrayFindClearBit a start = some r ∧
      bitArrayFindSetBit a.complement start = some r ∧
      bitArrayFindClearWithin (a.numOfWords.toNat - start.toNat / 64) a start = some r ∧
      bitArrayFindSetWithin (a.numOfWords.toNat - start.toNat / 64) a.complement start =
        some r := by
  obtain ⟨r, hr, hr'⟩ := findClear_looksFor.find_rounds (m := a.numOfWords.toNat + 1)
    (n := a.numOfWords.toNat - start.toNat / 64) ha hs (by omega) (by omega)
  have hset : bitArrayFindSetBit a.complement start = bitArrayFindClearBit a start :=
    (findWithin_complement (a.numOfWords.toNat + 1) a start).symm
  exact ⟨r, hr, hset.trans hr, hr', (findWithin_complement _ a start).symm.trans hr'⟩

theorem find_dual_tests : ∃ r, bitArrayFindClearBit ⟨150, 3, 4, [7, 0, 0, 0]⟩ 100 = some r ∧
    bitArrayFindSetBit (MyBitArray.complement ⟨150, 3, 4, [7, 0, 0, 0]⟩) 100 = some r ∧
    bitArrayFindClearWithin 2 ⟨150, 3, 4, [7, 0, 0, 0]⟩ 100 = some r ∧
    bitArrayFindSetWithin 2 (MyBitArray.complement ⟨150, 3, 4, [7, 0, 0, 0]⟩) 100 = some r :=
  find_dual (a := ⟨150, 3, 4, [7, 0, 0, 0]⟩) ⟨by decide, by decide, by decide⟩
    (show (100 : Word) < 150 by decide)

end CompTech.BitArray
