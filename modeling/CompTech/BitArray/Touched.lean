import CompTech.BitArray.Region

/-!
# The positions a region call touches

The three region calls have six mask expressions of their own, in plain and complemented form.
`regionMask` is the one mask behind all of them: `regions_agree` says that setting, clearing and
toggling are `or`, `and not` and `xor` with it, so the three agree with each other.

They agree on the wrong positions. `bit_mask_64 (n)` is the top `n` bits of a word where the
bottom ones are meant: a region inside one word reaches the top of the word, one over several
words takes the bottom of its first word and the top of its last. `Touched` is the set of
positions the mask covers, `Asked` the one the caller names, and `region_acts_iff` says what has
to hold of the array for the difference not to show. A toggle shows it always, so it is right
for whole words only.

The three calls are handled together: `LaysOn` says what the operators of a call have in common, and
every lemma up to `LaysOn.actsOn_iff` is about any call of that kind. Only the two main results name
the three of them.
-/

namespace CompTech.BitArray

open MyBitArray

/-! ## One mask for the three calls

A region call combines every word with a mask of its own. Inside one word that is `lastMask`, over
several words the first one meets the complement of a mask and the ones between are overwritten;
`LaysOn` holds the operators together so that all of it is one `lay`. -/

theorem getLsbD_topBits {n k : Nat} (hn : n ≤ 64) (hk : k < 64) :
    (topBits n).getLsbD k = decide (64 ≤ n + k) := by
  rw [topBits]
  split
  · rename_i hzero
    rw [hzero, Nat.zero_add, decide_eq_false (Nat.not_le.mpr hk)]
    exact BitVec.getLsbD_zero
  · rw [BitVec.getLsbD_shiftLeft, WORD_MAX, BitVec.getLsbD_allOnes, Bool.eq_iff_iff]
    simp only [hk, decide_true, Bool.true_and, Bool.and_eq_true, Bool.not_eq_true',
      decide_eq_false_iff_not, decide_eq_true_eq]
    omega

/-- The mask that meets the last word of a region. -/
def lastMask (p n : Nat) : Word :=
  if p / 64 = (p + n - 1) / 64 then topBits n <<< (p % 64) else topBits ((p + n - 1) % 64 + 1)

theorem getLsbD_lastMask {p n k : Nat} (hk : k < 64) :
    (lastMask p n).getLsbD k = true ↔ if p / 64 = (p + n - 1) / 64 then
      p % 64 ≤ k ∧ 64 + p % 64 ≤ n + k else 64 ≤ (p + n - 1) % 64 + 1 + k := by
  unfold lastMask
  split
  · rw [BitVec.getLsbD_shiftLeft]
    simp only [hk, decide_true, Bool.true_and, Bool.and_eq_true, Bool.not_eq_true',
      decide_eq_false_iff_not]
    constructor
    · rintro ⟨hge, hbit⟩
      rw [getLsbD_topBits (by omega) (by omega), decide_eq_true_eq] at hbit
      omega
    · rintro ⟨hge, hle⟩
      refine ⟨by omega, ?_⟩
      rw [getLsbD_topBits (by omega) (by omega), decide_eq_true_eq]
      omega
  · rw [getLsbD_topBits (by omega) hk, decide_eq_true_eq]

/-- The mask a region call over positions `p, …, p + n - 1` lays on word `j`. -/
def regionMask (p n j : Nat) : Word :=
  let e := p + n - 1
  if p / 64 = e / 64 then
    if j = p / 64 then topBits n <<< (p % 64) else 0
  else if j = p / 64 then ~~~topBits (p % 64)
  else if j = e / 64 then topBits (e % 64 + 1)
  else if p / 64 < j ∧ j < e / 64 then WORD_MAX
  else 0

/-- Every word combined with its mask. -/
def MyBitArray.lay (op : Word → Word → Word) (mask : Nat → Word) (a : MyBitArray) :
    MyBitArray :=
  { a with buffBits := a.buffBits.mapIdx fun j w => op w (mask j) }

/-- What the three calls have in common: word by word `op` is `f` at every place, `first` is
    `op` under the complemented mask, and `between` is `op` under the full one. -/
structure LaysOn (op first : Word → Word → Word) (between : Word → Word)
    (f : Bool → Bool → Bool) : Prop where
  bits : ∀ w m k, k < 64 → (op w m).getLsbD k = f (w.getLsbD k) (m.getLsbD k)
  keep : ∀ x, f x false = x
  first : ∀ w m, first w m = op w (~~~m)
  between : ∀ w, between w = op w WORD_MAX

theorem setRegion_laysOn :
    LaysOn (fun w m => w ||| m) (fun w m => w ||| ~~~m) (fun _ => WORD_MAX) or where
  bits _ _ _ _ := BitVec.getLsbD_or
  keep := Bool.or_false
  first _ _ := rfl
  between _ := BitVec.or_allOnes.symm

theorem clearRegion_laysOn :
    LaysOn (fun w m => w &&& ~~~m) (fun w m => w &&& m) (fun _ => WORD_MIN)
      (fun x y => x && !y) where
  bits _ _ _ hk := by simp [hk]
  keep := Bool.and_true
  first _ _ := by rw [BitVec.not_not]
  between _ := BitVec.and_zero.symm

theorem toggleRegion_laysOn :
    LaysOn (fun w m => w ^^^ m) (fun w m => w ^^^ ~~~m) (fun w => w ^^^ WORD_MAX) xor where
  bits _ _ _ _ := BitVec.getLsbD_xor
  keep := Bool.xor_false
  first _ _ := rfl
  between _ := rfl

section Lay

variable {op op' first : Word → Word → Word} {between : Word → Word} {f : Bool → Bool → Bool}
  {mask : Nat → Word} {a : MyBitArray} {start length : Word} {p n : Nat}

theorem LaysOn.zero (h : LaysOn op first between f) (w : Word) : op w 0 = w := by
  refine BitVec.eq_of_getLsbD_eq fun k hk => ?_
  have hzero : (0 : Word).getLsbD k = false := BitVec.getLsbD_zero
  rw [h.bits _ _ _ hk, hzero, h.keep]

theorem LaysOn.regionWord_eq (h : LaysOn op first between f) (j : Nat) (w : Word) :
    regionWord op first between op p n j w = op w (regionMask p n j) := by
  unfold regionWord regionMask
  dsimp only
  split
  · split
    · rfl
    · rw [h.zero]
  · split
    · exact h.first _ _
    · split
      · rfl
      · split
        · exact h.between w
        · rw [h.zero]

theorem LaysOn.region_eq (h : LaysOn op first between f) (ha : a.WordsOk) (hlen : length ≠ 0)
    (hle : start.toNat + length.toNat ≤ a.numOfBits.toNat) :
    bitArrayRegion op first between op a start length =
      some (a.lay op (regionMask start.toNat length.toNat)) := by
  rw [bitArrayRegion_eq op first between op ha hlen hle, MyBitArray.lay]
  congr 3
  funext j w
  exact h.regionWord_eq j w

theorem MyBitArray.WordsOk.lay (ha : a.WordsOk) : (a.lay op mask).WordsOk :=
  ⟨ha.words, ha.fits, by simpa [MyBitArray.lay] using ha.alloc⟩

theorem lay_lay : (a.lay op mask).lay op' mask = a.lay (fun w m => op' (op w m) m) mask := by
  simp only [MyBitArray.lay, List.mapIdx_mapIdx]
  rfl

theorem lay_same (h : ∀ w m, op w m = w) : a.lay op mask = a := by
  have hbuf : (a.buffBits.mapIdx fun j w => op w (mask j)) = a.buffBits :=
    List.mapIdx_eq_iff.mpr fun i => by simp only [h, Option.map_id']
  rw [MyBitArray.lay, hbuf]

theorem lay_congr (h : ∀ w m, op w m = op' w m) : a.lay op mask = a.lay op' mask := by
  rw [show op = op' from funext fun w => funext (h w)]

end Lay

/-! ## The shift amounts

All shifts of a call have a meaning, as both offsets are below 64 and a mask is only asked for with
a length of 64 at most. -/

/-- The shift `bit_mask_64` makes. -/
def bitMask64Shifts (length : Word) : List Word :=
  if length ≠ 0 then [WORD_SIZE - length] else []

theorem bitMask64_isSome_iff {length : Word} :
    (bitMask64 length).isSome = true ↔ ∀ s ∈ bitMask64Shifts length, s < 64 := by
  unfold bitMask64 bitMask64Shifts
  by_cases hlen : length = 0
  · simp [hlen]
  · simp only [ne_eq, hlen, not_false_eq_true, if_true, List.forall_mem_singleton]
    split <;> simp_all

/-- The shifts of a region call, next to the constant one of `NUMB_OF_WORD64`. -/
def regionShifts (start length : Word) : List Word :=
  if length = 0 then []
  else
    let firstWord := numbOfWord64 start
    let firstOffset := indxInWord64 start
    let lastWord := numbOfWord64 (start + length - 1)
    let lastOffset := indxInWord64 (start + length - 1)
    if firstWord = lastWord then bitMask64Shifts length ++ [firstOffset]
    else bitMask64Shifts firstOffset ++ bitMask64Shifts (lastOffset + 1)

theorem bitMask64Shifts_lt {length : Word} (h : length.toNat ≤ 64) :
    ∀ s ∈ bitMask64Shifts length, s < 64 :=
  bitMask64_isSome_iff.mp (by rw [bitMask64_eq h]; rfl)

theorem regionShifts_lt {start length : Word}
    (hle : start.toNat + length.toNat < 2 ^ 64) : ∀ s ∈ regionShifts start length, s < 64 := by
  unfold regionShifts
  by_cases hlen : length = 0
  · simp [hlen]
  · have hpos := toNat_pos_of_ne_zero hlen
    have hend := toNat_regionEnd hlen hle
    have hoffset : indxInWord64 start < 64 := by
      show (indxInWord64 start).toNat < 64
      rw [toNat_indxInWord64]
      omega
    rw [if_neg hlen]
    dsimp only
    split
    · rename_i hsame
      have hword := congrArg BitVec.toNat hsame
      rw [toNat_numbOfWord64, toNat_numbOfWord64, hend] at hword
      rw [List.forall_mem_append, List.forall_mem_singleton]
      exact ⟨bitMask64Shifts_lt (by omega), hoffset⟩
    · rw [List.forall_mem_append]
      refine ⟨bitMask64Shifts_lt ?_, bitMask64Shifts_lt ?_⟩
      · rw [toNat_indxInWord64]
        omega
      · rw [toNat_indxInWord64_succ]
        omega

/-! ## The three calls agree -/

/-- The three calls are `or`, `and not` and `xor` with the same mask. -/
structure MaskedBy (mask : Nat → Word) (a : MyBitArray) (start length : Word) : Prop where
  set : bitArraySetRegion a start length = some (a.lay (fun w m => w ||| m) mask)
  clear : bitArrayClearRegion a start length = some (a.lay (fun w m => w &&& ~~~m) mask)
  toggle : bitArrayToggleRegion a start length = some (a.lay (fun w m => w ^^^ m) mask)

theorem maskedBy_regionMask {a : MyBitArray} {start length : Word} (ha : a.WordsOk)
    (hlen : length ≠ 0) (hle : start.toNat + length.toNat ≤ a.numOfBits.toNat) :
    MaskedBy (regionMask start.toNat length.toNat) a start length where
  set := setRegion_laysOn.region_eq ha hlen hle
  clear := clearRegion_laysOn.region_eq ha hlen hle
  toggle := toggleRegion_laysOn.region_eq ha hlen hle

/-- The mask stays in the words of the region. -/
theorem regionMask_ne_zero {p n j : Nat} (hn : 0 < n) (h : regionMask p n j ≠ 0) :
    p / 64 ≤ j ∧ j ≤ (p + n - 1) / 64 := by
  have hle : p / 64 ≤ (p + n - 1) / 64 := Nat.div_le_div_right (by omega)
  unfold regionMask at h
  dsimp only at h
  split at h
  · split at h
    · omega
    · exact absurd rfl h
  · split at h
    · omega
    · split at h
      · omega
      · split at h
        · omega
        · exact absurd rfl h

theorem MaskedBy.toggle_toggle {mask : Nat → Word} {a : MyBitArray} {start length : Word}
    (h : MaskedBy mask a start length)
    (h' : MaskedBy mask (a.lay (fun w m => w ^^^ m) mask) start length) :
    (bitArrayToggleRegion a start length).bind (bitArrayToggleRegion · start length) =
      some a := by
  rw [h.toggle, Option.bind_some, h'.toggle, lay_lay,
    lay_same fun w m => by rw [BitVec.xor_assoc, BitVec.xor_self, BitVec.xor_zero]]

theorem MaskedBy.set_clear {mask : Nat → Word} {a : MyBitArray} {start length : Word}
    (h : MaskedBy mask a start length)
    (h' : MaskedBy mask (a.lay (fun w m => w ||| m) mask) start length) :
    (bitArraySetRegion a start length).bind (bitArrayClearRegion · start length) =
      bitArrayClearRegion a start length := by
  rw [h.set, Option.bind_some, h'.clear, h.clear, lay_lay]
  refine congrArg some (lay_congr fun w m => BitVec.eq_of_getLsbD_eq fun i hi => ?_)
  simp only [BitVec.getLsbD_and, BitVec.getLsbD_or, BitVec.getLsbD_not, hi, decide_true,
    Bool.true_and]
  cases w.getLsbD i <;> cases m.getLsbD i <;> rfl

theorem MaskedBy.clear_toggle {mask : Nat → Word} {a : MyBitArray} {start length : Word}
    (h : MaskedBy mask a start length)
    (h' : MaskedBy mask (a.lay (fun w m => w &&& ~~~m) mask) start length) :
    (bitArrayClearRegion a start length).bind (bitArrayToggleRegion · start length) =
      bitArraySetRegion a start length := by
  rw [h.clear, Option.bind_some, h'.toggle, h.set, lay_lay]
  refine congrArg some (lay_congr fun w m => BitVec.eq_of_getLsbD_eq fun i hi => ?_)
  simp only [BitVec.getLsbD_and, BitVec.getLsbD_or, BitVec.getLsbD_not, BitVec.getLsbD_xor, hi,
    decide_true, Bool.true_and]
  cases w.getLsbD i <;> cases m.getLsbD i <;> rfl

/-- **The three region calls agree.** Behind a region there is one mask, inside its words, that the
    three calls lay on whatever the buffer holds; every shift is below the word size. So a region
    toggled twice is as before, setting does not change what clearing leaves, and toggling what is
    clear sets it. The set of positions is `Touched` again: the three calls differ from what they
    should do in the same places. -/
theorem regions_agree (start length : Word) (hlen : length ≠ 0) : ∃ mask : Nat → Word,
    (∀ j, mask j ≠ 0 →
      start.toNat / 64 ≤ j ∧ j ≤ (start.toNat + length.toNat - 1) / 64) ∧
    ∀ a : MyBitArray, a.WordsOk → start.toNat + length.toNat ≤ a.numOfBits.toNat →
      MaskedBy mask a start length ∧ (∀ s ∈ regionShifts start length, s < 64) ∧
      (bitArrayToggleRegion a start length).bind (bitArrayToggleRegion · start length) =
        some a ∧
      (bitArraySetRegion a start length).bind (bitArrayClearRegion · start length) =
        bitArrayClearRegion a start length ∧
      (bitArrayClearRegion a start length).bind (bitArrayToggleRegion · start length) =
        bitArraySetRegion a start length := by
  refine ⟨regionMask start.toNat length.toNat,
    fun j => regionMask_ne_zero (toNat_pos_of_ne_zero hlen), fun a ha hle => ?_⟩
  have hmask := maskedBy_regionMask ha hlen hle
  have hbits := a.numOfBits.isLt
  refine ⟨hmask, regionShifts_lt (by omega), ?_, ?_, ?_⟩
  · exact hmask.toggle_toggle (maskedBy_regionMask ha.lay hlen hle)
  · exact hmask.set_clear (maskedBy_regionMask ha.lay hlen hle)
  · exact hmask.clear_toggle (maskedBy_regionMask ha.lay hlen hle)

/-- The second range of the tests, over three words. -/
theorem regions_agree_sixty : ∃ mask, MaskedBy mask ⟨150, 3, 4, [7, 0, 9, 0]⟩ 60 80 ∧
    (bitArrayToggleRegion ⟨150, 3, 4, [7, 0, 9, 0]⟩ 60 80).bind (bitArrayToggleRegion · 60 80) =
      some ⟨150, 3, 4, [7, 0, 9, 0]⟩ := by
  obtain ⟨mask, -, hall⟩ := regions_agree 60 80 (by decide)
  obtain ⟨hmask, -, htwice, -, -⟩ := hall ⟨150, 3, 4, [7, 0, 9, 0]⟩
    ⟨by decide, by decide, by decide⟩ (by decide)
  exact ⟨mask, hmask, htwice⟩

/-! ## Which positions they are

From words to positions: bit `i` is in word `i / 64` at place `i % 64`, and `getLsbD_regionMask`
reads the mask at that place. -/

/-- Position `i` is one of the `n` from `p` on. -/
def Asked (p n i : Nat) : Prop := p ≤ i ∧ i < p + n

instance (p n i : Nat) : Decidable (Asked p n i) := inferInstanceAs (Decidable (_ ∧ _))

/-- The positions the masks cover: the last `n` places of the word, moved up, when the region
    lies in one word; else the lower part of the first word, the words between, and the upper
    part of the last word. -/
def Touched (p n i : Nat) : Prop :=
  let e := p + n - 1
  0 < n ∧
    if p / 64 = e / 64 then i / 64 = p / 64 ∧ 64 + p % 64 ≤ n + i % 64
    else
      i / 64 = p / 64 ∧ p % 64 + i % 64 < 64 ∨ i / 64 = e / 64 ∧ 63 ≤ e % 64 + i % 64 ∨
        p / 64 < i / 64 ∧ i / 64 < e / 64

instance (p n i : Nat) : Decidable (Touched p n i) :=
  inferInstanceAs (Decidable (_ ∧ ite _ _ _))

theorem getLsbD_regionMask {p n i : Nat} (hn : 0 < n) :
    (regionMask p n (i / 64)).getLsbD (i % 64) = decide (Touched p n i) := by
  have hk : i % 64 < 64 := Nat.mod_lt _ (by omega)
  rw [Bool.eq_iff_iff, decide_eq_true_iff]
  unfold regionMask Touched
  dsimp only
  by_cases hsame : p / 64 = (p + n - 1) / 64
  · rw [if_pos hsame, if_pos hsame]
    by_cases hfirst : i / 64 = p / 64
    · have hbit := getLsbD_lastMask (p := p) (n := n) hk
      rw [lastMask, if_pos hsame, if_pos hsame] at hbit
      rw [if_pos hfirst, hbit]
      omega
    · rw [if_neg hfirst]
      exact iff_of_false (by simp) fun h => hfirst h.2.1
  · rw [if_neg hsame, if_neg hsame]
    by_cases hfirst : i / 64 = p / 64
    · rw [if_pos hfirst, BitVec.getLsbD_not, getLsbD_topBits (by omega) hk]
      simp only [hk, decide_true, Bool.true_and, Bool.not_eq_true', decide_eq_false_iff_not]
      omega
    · rw [if_neg hfirst]
      by_cases hlast : i / 64 = (p + n - 1) / 64
      · rw [if_pos hlast, getLsbD_topBits (by omega) hk, decide_eq_true_iff]
        omega
      · rw [if_neg hlast]
        split
        · rename_i hbetween
          refine iff_of_true ?_ ⟨hn, .inr (.inr hbetween)⟩
          rw [WORD_MAX, BitVec.getLsbD_allOnes, decide_eq_true hk]
        · exact iff_of_false (by simp) (by omega)

theorem Touched.lt {p n i : Nat} (h : Touched p n i) : i / 64 ≤ (p + n - 1) / 64 := by
  obtain ⟨hn, h⟩ := h
  have hle : p / 64 ≤ (p + n - 1) / 64 := Nat.div_le_div_right (by omega)
  split at h <;> omega

/-- The masks cover what is asked for only for whole words. -/
theorem touched_iff_asked {p n : Nat} :
    (∀ i, Touched p n i ↔ Asked p n i) ↔ n = 0 ∨ p % 64 = 0 ∧ (p + n) % 64 = 0 := by
  unfold Touched Asked
  constructor
  · intro h
    by_cases hn : n = 0
    · exact .inl hn
    right
    have hstart := h p
    have hbottom := h (64 * (p / 64))
    have htop := h (64 * ((p + n - 1) / 64) + 63)
    dsimp only at hstart hbottom htop
    split at hstart <;> rename_i hsame
    · -- one word: the position `p` itself is covered
      omega
    · -- the bottom of the first word and the top of the last are covered
      rw [if_neg hsame] at hbottom htop
      omega
  · rintro (rfl | ⟨hp, he⟩) i
    · omega
    · dsimp only
      split <;> omega

/-! ## Where the difference shows

A position shows a wrong mask if the operator changes the bit that is there. For `or` those are the
zeros, for `and not` the ones, and for `xor` all of them. -/

/-- The call changes what it is asked to change, to `f`, and nothing else. -/
def ActsOn (call : MyBitArray → Word → Word → Option MyBitArray) (f : Nat → Bool)
    (a : MyBitArray) (start length : Word) : Prop :=
  ∃ b, call a start length = some b ∧
    ∀ i, b.bit i = if Asked start.toNat length.toNat i then f i else a.bit i

section Acts

variable {op first : Word → Word → Word} {between : Word → Word} {f : Bool → Bool → Bool}
  {a : MyBitArray} {start length : Word}

theorem bit_mapIdx {g : Nat → Word → Word} {j : Nat} (hj : j / 64 < a.buffBits.length) :
    ({ a with buffBits := a.buffBits.mapIdx g } : MyBitArray).bit j =
      (g (j / 64) (a.buffBits.getD (j / 64) 0)).getLsbD (j % 64) := by
  show ((a.buffBits.mapIdx g).getD (j / 64) 0).getLsbD (j % 64) = _
  rw [List.getD_eq_getElem?_getD, List.getElem?_mapIdx, List.getElem?_eq_getElem hj,
    Option.map_some, Option.getD_some, List.getD_eq_getElem?_getD, List.getElem?_eq_getElem hj,
    Option.getD_some]

theorem LaysOn.bit_lay {mask : Nat → Word} {i : Nat} (h : LaysOn op first between f)
    (hi : i / 64 < a.buffBits.length) :
    (a.lay op mask).bit i = f (a.bit i) ((mask (i / 64)).getLsbD (i % 64)) := by
  rw [MyBitArray.lay, bit_mapIdx hi, h.bits _ _ _ (Nat.mod_lt _ (by omega)), MyBitArray.bit]

theorem bit_of_le {i : Nat} (hi : a.buffBits.length ≤ i / 64) : a.bit i = false := by
  rw [MyBitArray.bit, List.getD_eq_getElem?_getD, List.getElem?_eq_none hi]
  exact BitVec.getLsbD_zero

/-- What a region call makes of each position. -/
theorem LaysOn.region_bits (h : LaysOn op first between f) (ha : a.WordsOk)
    (hle : start.toNat + length.toNat ≤ a.numOfBits.toNat) :
    ∃ b, bitArrayRegion op first between op a start length = some b ∧
      ∀ i, b.bit i = f (a.bit i) (decide (Touched start.toNat length.toNat i)) := by
  by_cases hlen : length = 0
  · refine ⟨a, if_pos hlen, fun i => ?_⟩
    have hnot : ¬Touched start.toNat length.toNat i := by
      rw [hlen]
      exact fun h => Nat.lt_irrefl _ h.1
    rw [decide_eq_false hnot, h.keep]
  · have hpos := toNat_pos_of_ne_zero hlen
    have hwords := ha.words
    have hfits := ha.fits
    have halloc := ha.alloc
    refine ⟨_, h.region_eq ha hlen hle, fun i => ?_⟩
    rcases Nat.lt_or_ge (i / 64) a.buffBits.length with hin | hout
    · rw [h.bit_lay hin, getLsbD_regionMask hpos]
    · have hnot : ¬Touched start.toNat length.toNat i := fun ht => by
        have hlt := ht.lt
        omega
      rw [decide_eq_false hnot, h.keep, bit_of_le hout, bit_of_le]
      simpa [MyBitArray.lay] using hout

/-- A region call acts on what is asked for exactly if, at every position it would change, the
    mask and the request agree. -/
theorem LaysOn.actsOn_iff {g : Nat → Bool} (h : LaysOn op first between f) (ha : a.WordsOk)
    (hle : start.toNat + length.toNat ≤ a.numOfBits.toNat) (hg : ∀ i, f (a.bit i) true = g i) :
    ActsOn (bitArrayRegion op first between op) g a start length ↔ ∀ i, g i ≠ a.bit i →
      (Touched start.toNat length.toNat i ↔ Asked start.toNat length.toNat i) := by
  obtain ⟨b, hb, hbits⟩ := h.region_bits ha hle
  have heach : ∀ i, (b.bit i = if Asked start.toNat length.toNat i then g i else a.bit i) ↔
      (g i ≠ a.bit i →
        (Touched start.toNat length.toNat i ↔ Asked start.toNat length.toNat i)) := by
    intro i
    rw [hbits i]
    by_cases ht : Touched start.toNat length.toNat i <;>
      by_cases hs : Asked start.toNat length.toNat i <;>
      simp [ht, hs, h.keep, hg, eq_comm]
  rw [← forall_congr' heach]
  constructor
  · rintro ⟨b', hb', hacts⟩
    rw [hb, Option.some.injEq] at hb'
    exact hb' ▸ hacts
  · exact fun hacts => ⟨b, hb, hacts⟩

end Acts

/-- **Where the region calls act on what they are asked to.** Setting and clearing: where every
    position in which the masks and the region differ holds the value already. Toggling: where the
    region is made of whole words. `Touched` is a closed form of the positions under the masks, in
    the two arguments of the call only; the equivalences say that the effect is what the region asks
    for at the positions where `Touched` and `Asked` are different. -/
theorem region_acts_iff {a : MyBitArray} {start length : Word} (ha : a.WordsOk)
    (hle : start.toNat + length.toNat ≤ a.numOfBits.toNat) :
    (ActsOn bitArraySetRegion (fun _ => true) a start length ↔
      ∀ i, a.bit i = false →
        (Touched start.toNat length.toNat i ↔ Asked start.toNat length.toNat i)) ∧
    (ActsOn bitArrayClearRegion (fun _ => false) a start length ↔
      ∀ i, a.bit i = true →
        (Touched start.toNat length.toNat i ↔ Asked start.toNat length.toNat i)) ∧
    (ActsOn bitArrayToggleRegion (fun i => !a.bit i) a start length ↔
      length.toNat = 0 ∨
        start.toNat % 64 = 0 ∧ (start.toNat + length.toNat) % 64 = 0) := by
  refine ⟨?_, ?_, ?_⟩
  · rw [bitArraySetRegion, setRegion_laysOn.actsOn_iff ha hle fun _ => Bool.or_true _]
    exact forall_congr' fun i => by cases a.bit i <;> simp
  · rw [bitArrayClearRegion, clearRegion_laysOn.actsOn_iff ha hle fun _ => Bool.and_false _]
    exact forall_congr' fun i => by cases a.bit i <;> simp
  · rw [bitArrayToggleRegion, toggleRegion_laysOn.actsOn_iff ha hle fun _ => Bool.xor_true _,
      ← touched_iff_asked]
    exact forall_congr' fun i => by cases a.bit i <;> simp

/-- The second word of an array of two: `bit_array_set_region (ba, 64, 64)` is right. -/
theorem region_acts_wholeWord :
    ActsOn bitArraySetRegion (fun _ => true) ⟨128, 2, 2, [0, 0]⟩ 64 64 := by
  refine (region_acts_iff (a := ⟨128, 2, 2, [0, 0]⟩) ⟨by decide, by decide, by decide⟩
    (by decide)).1.mpr fun i _ => ?_
  exact touched_iff_asked.mpr (.inr ⟨by decide, by decide⟩) i

/-- `bit_array_set_region (ba, 1, 7)`, the first range of the tests, sets places 58 to 63. -/
theorem region_misses : ¬ ∀ (a : MyBitArray) (start length : Word), a.WordsOk →
    start.toNat + length.toNat ≤ a.numOfBits.toNat →
      ActsOn bitArraySetRegion (fun _ => true) a start length ∧
        ActsOn bitArrayClearRegion (fun _ => false) a start length ∧
        ActsOn bitArrayToggleRegion (fun i => !a.bit i) a start length := by
  intro hall
  obtain ⟨b, hb, hacts⟩ := (hall ⟨150, 3, 4, [0, 0, 0, 0]⟩ 1 7
    ⟨by decide, by decide, by decide⟩ (by decide)).1
  have hrun : bitArraySetRegion ⟨150, 3, 4, [0, 0, 0, 0]⟩ 1 7 =
      some ⟨150, 3, 4, [0xFC00000000000000, 0, 0, 0]⟩ := by decide
  rw [hrun, Option.some.injEq] at hb
  have hfirst := hacts 1
  rw [← hb] at hfirst
  exact absurd hfirst (by decide)

end CompTech.BitArray
