import CompTech.BitArray.Size

/-!
# The region operations, word by word

The three region functions visit the words from that of `start` to that of
`start + length - 1` and do one thing to each. `regionWord` is that thing as a function of the
word's index, and `bitArrayRegion_eq` says the whole call is that function mapped over the
buffer: the two or one boundary words under their masks, the words between by the loop, and
every other word left alone. That the call is defined at all — every index inside the block,
every shift below 64 — is half of the statement.

Nothing is said here about which bits a mask has; that is left to `Touched`.
-/

namespace CompTech.BitArray

open MyBitArray

/-! ## Masks and positions -/

theorem toNat_pos_of_ne_zero {n : Word} (h : n ≠ 0) : 0 < n.toNat := by
  rcases Nat.eq_zero_or_pos n.toNat with h0 | hpos
  · exact absurd (BitVec.eq_of_toNat_eq (by simpa using h0)) h
  · exact hpos

/-- `bit_mask_64` where its shift has a meaning: the top `n` bits. -/
def topBits (n : Nat) : Word := if n = 0 then WORD_MIN else WORD_MAX <<< (64 - n)

theorem bitMask64_eq {n : Word} (hn : n.toNat ≤ 64) : bitMask64 n = some (topBits n.toNat) := by
  have hsize : WORD_SIZE = 64#64 := rfl
  by_cases h0 : n = 0
  · subst h0; rfl
  · have hpos := toNat_pos_of_ne_zero h0
    have hsub : (WORD_SIZE - n).toNat = 64 - n.toNat := by rw [hsize]; bv_omega
    have hlt : WORD_SIZE - n < 64 := by
      show (WORD_SIZE - n).toNat < 64
      omega
    rw [bitMask64, if_pos h0, if_pos hlt, hsub, topBits, if_neg (by omega)]

@[simp] theorem toNat_numbOfWord64 (p : Word) : (numbOfWord64 p).toNat = p.toNat / 64 := by
  rw [numbOfWord64, BitVec.toNat_ushiftRight, Nat.shiftRight_eq_div_pow]

@[simp] theorem toNat_indxInWord64 (p : Word) : (indxInWord64 p).toNat = p.toNat % 64 := by
  have hmask : (WORD_SIZE - 1 : Word).toNat = 2 ^ 6 - 1 := rfl
  rw [indxInWord64, BitVec.toNat_and, hmask, Nat.and_two_pow_sub_one_eq_mod]

theorem toNat_indxInWord64_succ (p : Word) : (indxInWord64 p + 1).toNat = p.toNat % 64 + 1 := by
  rw [BitVec.toNat_add, toNat_indxInWord64]
  have hone : (1 : Word).toNat = 1 := rfl
  omega

theorem bitMask64_indx (p : Word) :
    bitMask64 (indxInWord64 p) = some (topBits (p.toNat % 64)) := by
  rw [bitMask64_eq (by rw [toNat_indxInWord64]; omega), toNat_indxInWord64]

theorem bitMask64_indx_succ (p : Word) :
    bitMask64 (indxInWord64 p + 1) = some (topBits (p.toNat % 64 + 1)) := by
  rw [bitMask64_eq (by rw [toNat_indxInWord64_succ]; omega), toNat_indxInWord64_succ]

/-- The last position of a region. -/
theorem toNat_regionEnd {start length : Word} (hlen : length ≠ 0)
    (hle : start.toNat + length.toNat < 2 ^ 64) :
    (start + length - 1).toNat = start.toNat + length.toNat - 1 := by
  have hpos := toNat_pos_of_ne_zero hlen
  have hone : (1 : Word).toNat = 1 := rfl
  rw [BitVec.toNat_sub, BitVec.toNat_add]
  omega

/-! ## The call -/

section Region

variable (only first : Word → Word → Word) (between : Word → Word) (last : Word → Word → Word)

/-- What a region call over positions `p, …, p + n - 1` does to word `j`. -/
def regionWord (p n j : Nat) (w : Word) : Word :=
  let e := p + n - 1
  if p / 64 = e / 64 then
    if j = p / 64 then only w (topBits n <<< (p % 64)) else w
  else if j = p / 64 then first w (topBits (p % 64))
  else if j = e / 64 then last w (topBits (e % 64 + 1))
  else if p / 64 < j ∧ j < e / 64 then between w
  else w

/-- **A region call is a map over the buffer.** Inside `num_of_bits` the call is defined and
    applies `regionWord` to every word; the counts do not move. -/
theorem bitArrayRegion_eq {a : MyBitArray} {start length : Word} (ha : a.WordsOk)
    (hlen : length ≠ 0) (hle : start.toNat + length.toNat ≤ a.numOfBits.toNat) :
    bitArrayRegion only first between last a start length = some { a with
      buffBits := a.buffBits.mapIdx
        (regionWord only first between last start.toNat length.toNat) } := by
  have hpos := toNat_pos_of_ne_zero hlen
  have hbits := a.numOfBits.isLt
  have hend := toNat_regionEnd hlen (hle.trans_lt hbits)
  have hwords := ha.words
  have hfits := ha.fits
  have halloc := ha.alloc
  have hlast : (start.toNat + length.toNat - 1) / 64 < a.buffBits.length := by omega
  have hfirst : start.toNat / 64 < a.buffBits.length := by omega
  by_cases hsame : numbOfWord64 start = numbOfWord64 (start + length - 1)
  · -- one word
    have hsame' : start.toNat / 64 = (start.toNat + length.toNat - 1) / 64 := by
      have h := congrArg BitVec.toNat hsame
      rwa [toNat_numbOfWord64, toNat_numbOfWord64, hend] at h
    have hmask : bitMask64 length = some (topBits length.toNat) := bitMask64_eq (by omega)
    simp only [bitArrayRegion, if_neg hlen, if_pos hsame, hmask, Option.bind_eq_bind,
      Option.bind_some, toNat_indxInWord64]
    rw [toNat_numbOfWord64, Lib.storeAt_of_lt _ hfirst, Option.bind_some]
    congr 3
    funext j w
    simp only [regionWord, if_pos hsame']
  · -- a first word, a last word, and the loop between them
    have hne : start.toNat / 64 ≠ (start.toNat + length.toNat - 1) / 64 := by
      intro h
      refine hsame (BitVec.eq_of_toNat_eq ?_)
      rw [toNat_numbOfWord64, toNat_numbOfWord64, hend]
      exact h
    simp only [bitArrayRegion, if_neg hlen, if_neg hsame, bitMask64_indx, bitMask64_indx_succ,
      Option.bind_eq_bind, Option.bind_some]
    rw [toNat_numbOfWord64, toNat_numbOfWord64, hend, Lib.storeAt_of_lt _ hfirst,
      Option.bind_some, Lib.foldlM_storeAt _ _ _ _ (by rw [List.length_mapIdx]; omega),
      Option.bind_some,
      Lib.storeAt_of_lt _ (by rw [List.length_mapIdx, List.length_mapIdx]; exact hlast),
      Option.bind_some, List.mapIdx_mapIdx, List.mapIdx_mapIdx]
    congr 3
    funext j w
    simp only [Function.comp_apply, regionWord, if_neg hne]
    by_cases hj : j = start.toNat / 64
    · rw [if_neg (by omega), if_neg (by omega), if_pos hj, if_pos hj]
    · rw [if_neg hj, if_neg hj]
      by_cases hl : j = (start.toNat + length.toNat - 1) / 64
      · rw [if_pos hl, if_pos hl, if_neg (by omega)]
      · rw [if_neg hl, if_neg hl]
        by_cases hb : start.toNat / 64 < j ∧ j < (start.toNat + length.toNat - 1) / 64
        · rw [if_pos (by omega), if_pos hb]
        · rw [if_neg (by omega), if_neg hb]

theorem regionWord_of_lt {p n j : Nat} (hn : 0 < n) (hj : (p + n - 1) / 64 < j) (w : Word) :
    regionWord only first between last p n j w = w := by
  have hp : p / 64 ≤ (p + n - 1) / 64 := Nat.div_le_div_right (by omega)
  have hjp : ¬ j = p / 64 := by omega
  have hje : ¬ j = (p + n - 1) / 64 := by omega
  have hb : ¬ (p / 64 < j ∧ j < (p + n - 1) / 64) := by omega
  simp only [regionWord, if_neg hjp, if_neg hje, if_neg hb, ite_self]

/-- A region call stays inside the words in use. -/
theorem bitArrayRegion_framed {a : MyBitArray} {start length : Word} (ha : a.WordsOk)
    (hle : start.toNat + length.toNat ≤ a.numOfBits.toNat) :
    ∃ b, bitArrayRegion only first between last a start length = some b ∧ Framed a b := by
  by_cases hlen : length = 0
  · exact ⟨a, if_pos hlen, ⟨rfl, rfl, rfl, rfl, fun _ _ => rfl⟩⟩
  · have hpos := toNat_pos_of_ne_zero hlen
    refine ⟨_, bitArrayRegion_eq only first between last ha hlen hle,
      ⟨rfl, rfl, rfl, List.length_mapIdx, fun i hi => ?_⟩⟩
    have hwords := ha.words
    have hout : (start.toNat + length.toNat - 1) / 64 < i := by omega
    have hid : regionWord only first between last start.toNat length.toNat i = id :=
      funext fun w => regionWord_of_lt only first between last hpos hout w
    rw [List.getElem?_mapIdx, hid, Option.map_id]
    rfl

end Region

end CompTech.BitArray
