import CompTech.BitArray.Single
import CompTech.Lib.RoundUp

/-!
# Sizes: rounding up, and growing the buffer

Two roundings decide how large the buffer is: bits up to words, and words up to a power of
two. Both are computed in 64 bits; the lemmas here say where they are the exact ones. The number
of words is never above 2^58, so that the second rounding is always exact (`roundsUp_words`).

`bitArrayInit_fields` and `bitArrayResize_enlarged` are the specs of `bit_array_init` and of a
`bit_array_resize` that grows; within 2^63 bits both keep the representation invariant.

The functions are total, so the lemmas about roundings hold for all 64-bit words and say where
wrapping sets in; the bound of 2^63 bits comes in only with the invariant.
-/

namespace CompTech.BitArray

open MyBitArray

/-! ## Rounding up

`roundup_word64_to_pow2` spreads the highest bit with six shifts; that the result is the least
power of two is a fact of `Lib.RoundUp`, and here it is instantiated at 64 bits. -/

theorem toNat_roundupBitsToWords {n : Word} (hn : n.toNat + 63 < 2 ^ 64) :
    (roundupBitsToWords n).toNat = (n.toNat + 63) / 64 := by
  have hsum : (n + WORD_SIZE - 1).toNat = n.toNat + 63 := by
    have hw : WORD_SIZE = 64#64 := rfl
    rw [hw]
    bv_omega
  rw [roundupBitsToWords, BitVec.toNat_udiv, hsum, toNat_WORD_SIZE]

/-- The six steps of the cascade copy every set bit to all 63 places below it. -/
theorem smearedBy_cascade (w : Word) :
    let w₁ := w ||| (w >>> 1)
    let w₂ := w₁ ||| (w₁ >>> 2)
    let w₃ := w₂ ||| (w₂ >>> 4)
    let w₄ := w₃ ||| (w₃ >>> 8)
    let w₅ := w₄ ||| (w₄ >>> 16)
    Lib.SmearedBy w 64 (w₅ ||| (w₅ >>> 32)) := by
  intro w₁ w₂ w₃ w₄ w₅
  have h₁ : Lib.SmearedBy w 2 w₁ := (Lib.SmearedBy.one w).step (by omega)
  have h₂ : Lib.SmearedBy w 4 w₂ := h₁.step (by omega)
  have h₃ : Lib.SmearedBy w 8 w₃ := h₂.step (by omega)
  have h₄ : Lib.SmearedBy w 16 w₄ := h₃.step (by omega)
  have h₅ : Lib.SmearedBy w 32 w₅ := h₄.step (by omega)
  exact h₅.step (by omega)

/-- Before the two corrections: all ones below the highest bit of `word64 - 1`. -/
theorem roundupWord64ToPow2_eq (w : Word) : ∃ y : Word, y.toNat = 2 ^ (w - 1).toNat.size - 1 ∧
    roundupWord64ToPow2 w = (y + 1) + (if y + 1 = 0 then 1 else 0) :=
  ⟨_, (smearedBy_cascade (w - 1)).toNat_eq (by omega), rfl⟩

/-- What both corrections come to past 2^63, and at 0, where the decrement has wrapped. -/
theorem roundupWord64ToPow2_wrap {w : Word} (hw : 2 ^ 63 ≤ (w - 1).toNat) :
    roundupWord64ToPow2 w = 1 := by
  obtain ⟨y, hy, heq⟩ := roundupWord64ToPow2_eq w
  have hsize : (w - 1).toNat.size = 64 :=
    le_antisymm (Nat.size_le.mpr (w - 1).isLt) (Nat.lt_size.mpr hw)
  rw [hsize] at hy
  have hzero : y + 1 = 0 := by bv_omega
  rw [heq, hzero]
  rfl

theorem toNat_roundupWord64ToPow2 {w : Word} (h₁ : 1 ≤ w.toNat) (h₂ : w.toNat ≤ 2 ^ 63) :
    (roundupWord64ToPow2 w).toNat = 2 ^ (w.toNat - 1).size := by
  obtain ⟨y, hy, heq⟩ := roundupWord64ToPow2_eq w
  have hsub : (w - 1).toNat = w.toNat - 1 := by bv_omega
  rw [hsub] at hy
  have hsize : (w.toNat - 1).size ≤ 63 := Nat.size_le.mpr (by omega)
  have hle : 2 ^ (w.toNat - 1).size ≤ 2 ^ 63 := Nat.pow_le_pow_right (by omega) hsize
  have hpos : 0 < 2 ^ (w.toNat - 1).size := Nat.two_pow_pos _
  have hsucc : (y + 1).toNat = 2 ^ (w.toNat - 1).size := by bv_omega
  have hne : y + 1 ≠ 0 := by
    intro h0
    have hzero : (0 : Word).toNat = 0 := rfl
    rw [h0] at hsucc
    omega
  have hzero : y + 1 + 0 = y + 1 := BitVec.add_zero _
  rw [heq, if_neg hne, hzero, hsucc]

theorem roundupWord64ToPow2_zero : roundupWord64ToPow2 0 = 1 :=
  roundupWord64ToPow2_wrap (by decide)

/-- Up to 2^63 the cascade rounds up to a power of two; for 0 that is 1. -/
theorem roundsUp_roundupWord64ToPow2 {w : Word} (hw : w.toNat ≤ 2 ^ 63) :
    Lib.RoundsUp {p | p.isPowerOfTwo} w.toNat (roundupWord64ToPow2 w).toNat := by
  rcases Nat.eq_zero_or_pos w.toNat with hzero | hpos
  · obtain rfl : w = 0 := BitVec.eq_of_toNat_eq hzero
    rw [roundupWord64ToPow2_zero]
    exact Lib.roundsUp_two_pow 0
  · rw [toNat_roundupWord64ToPow2 hpos hw]
    exact Lib.roundsUp_two_pow w.toNat

theorem roundupBitsToWords_le (n : Word) : (roundupBitsToWords n).toNat ≤ 2 ^ 58 := by
  rw [roundupBitsToWords, BitVec.toNat_udiv, toNat_WORD_SIZE]
  omega

theorem roundsUp_words (n : Word) : Lib.RoundsUp {p | p.isPowerOfTwo}
    (roundupBitsToWords n).toNat (roundupWord64ToPow2 (roundupBitsToWords n)).toNat := by
  have hle := roundupBitsToWords_le n
  exact roundsUp_roundupWord64ToPow2 (by omega)

theorem roundup_words_le {n : Word} (hn : n.toNat ≤ 2 ^ 63) :
    (roundupWord64ToPow2 (roundupBitsToWords n)).toNat ≤ 2 ^ 57 := by
  refine (roundsUp_words n).le_of_mem ⟨57, rfl⟩ ?_
  rw [toNat_roundupBitsToWords (by omega)]
  omega

/-! ## The representation invariant -/

namespace MyBitArray

/-- What holds of the four fields between any two calls. -/
structure RepInv (a : MyBitArray) : Prop extends WordsOk a where
  pow2 : ∃ k, a.capacity.toNat = 2 ^ k
  two_le : 2 ≤ a.capacity.toNat
  clear : ∀ i, a.numOfWords.toNat ≤ i → i < a.capacity.toNat → a.buffBits[i]? = some 0#64

/-- The invariant together with the sizes that keep every 64-bit computation exact. -/
structure RunInv (a : MyBitArray) : Prop extends RepInv a where
  bits_le : a.numOfBits.toNat ≤ 2 ^ 63
  cap_le : a.capacity.toNat ≤ 2 ^ 57

/-- `b` has the counts of `a`, and the same words from the last used one on. -/
structure Framed (a b : MyBitArray) : Prop where
  numOfBits : b.numOfBits = a.numOfBits
  numOfWords : b.numOfWords = a.numOfWords
  capacity : b.capacity = a.capacity
  length : b.buffBits.length = a.buffBits.length
  unused : ∀ i, a.numOfWords.toNat ≤ i → b.buffBits[i]? = a.buffBits[i]?

theorem RunInv.framed {a b : MyBitArray} (h : RunInv a) (hf : Framed a b) : RunInv b where
  words := by rw [hf.numOfWords, hf.numOfBits]; exact h.words
  fits := by rw [hf.numOfWords, hf.capacity]; exact h.fits
  alloc := by rw [hf.capacity, hf.length]; exact h.alloc
  pow2 := by rw [hf.capacity]; exact h.pow2
  two_le := by rw [hf.capacity]; exact h.two_le
  clear := fun i hlo hhi => by
    rw [hf.numOfWords] at hlo
    rw [hf.capacity] at hhi
    rw [hf.unused i hlo]
    exact h.clear i hlo hhi
  bits_le := by rw [hf.numOfBits]; exact h.bits_le
  cap_le := by rw [hf.capacity]; exact h.cap_le

end MyBitArray

/-! ## init -/

/-- What `bit_array_init` leaves: the smallest power of two that gives room, but 2 at least, and
    words that are zero. -/
theorem bitArrayInit_fields {h : Heap} {n : Word} {a : MyBitArray}
    (ha : bitArrayInit h n = some a) :
    a.numOfBits = n ∧ a.numOfWords = roundupBitsToWords n ∧
      a.capacity.toNat = max 2 (roundupWord64ToPow2 (roundupBitsToWords n)).toNat ∧
      a.buffBits = List.replicate a.capacity.toNat 0 := by
  simp only [bitArrayInit] at ha
  split at ha
  · rw [Option.some.injEq] at ha
    subst ha
    refine ⟨rfl, rfl, ?_, rfl⟩
    dsimp only
    split
    · rename_i hgt
      have hgt' : 2 < (roundupWord64ToPow2 (roundupBitsToWords n)).toNat := hgt
      exact (max_eq_right (Nat.le_of_lt hgt')).symm
    · rename_i hle
      exact (max_eq_left (Nat.le_of_not_lt hle)).symm
  · cases ha

theorem MyBitArray.WordsOk.init {h : Heap} {n : Word} {a : MyBitArray}
    (hn : n.toNat + 63 < 2 ^ 64) (ha : bitArrayInit h n = some a) : a.WordsOk := by
  obtain ⟨hbits, hwords, hcap, hbuf⟩ := bitArrayInit_fields ha
  have hroom := (roundsUp_words n).le
  refine ⟨by rw [hwords, hbits]; exact toNat_roundupBitsToWords hn, ?_, by simp [hbuf]⟩
  rw [hwords]
  omega

theorem MyBitArray.RunInv.init {h : Heap} {n : Word} {a : MyBitArray} (hn : n.toNat ≤ 2 ^ 63)
    (ha : bitArrayInit h n = some a) : RunInv a := by
  have hok := WordsOk.init (by omega) ha
  obtain ⟨hbits, hwords, hcap, hbuf⟩ := bitArrayInit_fields ha
  have hle := roundup_words_le hn
  have hpow : ∃ k, a.capacity.toNat = 2 ^ k := by
    rw [hcap]
    rcases max_choice 2 (roundupWord64ToPow2 (roundupBitsToWords n)).toNat with hmax | hmax
    · exact ⟨1, hmax⟩
    · rw [hmax]
      exact (roundsUp_words n).mem
  refine ⟨⟨hok, hpow, by omega, fun i _ hi => ?_⟩, by rw [hbits]; exact hn, by omega⟩
  rw [hbuf, List.getElem?_replicate, if_pos hi]
  rfl

/-! ## resize

A resize to a larger size stays within the capacity, or it calls `realloc`, and that may fail.
The specification below is for a `realloc` that succeeds. -/

theorem getElem?_memsetZero {buf b : List Word} {off bytes : Word}
    (h : memsetZero buf off bytes = some b) :
    b.length = buf.length ∧ ∀ i, b[i]? = buf[i]?.map fun w =>
      if off.toNat ≤ i ∧ i < off.toNat + bytes.toNat / 8 then 0 else w := by
  simp only [memsetZero] at h
  split at h
  · rw [Option.some.injEq] at h
    subst h
    exact ⟨by simp, fun i => by simp⟩
  · exact absurd h (by simp)

/-- What `realloc` and `memset` leave when the buffer grows to `c` words, and the sizes in bytes do
    not wrap: the old words, zeros from there to `c`, and room for eight times as many. -/
theorem realloc_memset {h : Heap} {a : MyBitArray} {c : Word} (hs : h.succeeds = true)
    (halloc : a.capacity.toNat ≤ a.buffBits.length) (hlt : a.capacity.toNat < c.toNat)
    (hc : c.toNat * 64 < 2 ^ 64) :
    ∃ buf buf', realloc h a.buffBits (c * WORD_SIZE) = some buf ∧
      memsetZero buf a.capacity (c * WORD_SIZE - a.capacity * WORD_SIZE) = some buf' ∧
      buf'.length = c.toNat * 8 ∧
      (∀ i, i < a.capacity.toNat → buf'[i]? = a.buffBits[i]?) ∧
      ∀ i, a.capacity.toNat ≤ i → i < c.toNat → buf'[i]? = some 0 := by
  have hnew : (c * WORD_SIZE).toNat = c.toNat * 64 := by
    rw [BitVec.toNat_mul, toNat_WORD_SIZE]
    omega
  have hold : (a.capacity * WORD_SIZE).toNat = a.capacity.toNat * 64 := by
    rw [BitVec.toNat_mul, toNat_WORD_SIZE]
    omega
  have hdiff : (c * WORD_SIZE - a.capacity * WORD_SIZE).toNat =
      (c.toNat - a.capacity.toNat) * 64 := by
    rw [BitVec.toNat_sub, hnew, hold]
    omega
  have hne : c * WORD_SIZE ≠ 0 := by
    intro h0
    have hz : (c * WORD_SIZE).toNat = 0 := by rw [h0]; rfl
    omega
  obtain ⟨buf, hbuf⟩ : ∃ buf, realloc h a.buffBits (c * WORD_SIZE) = some buf :=
    ⟨_, if_pos ⟨hs, hne⟩⟩
  have hkept : buf.length = c.toNat * 8 ∧
      ∀ i, i < a.capacity.toNat → buf[i]? = a.buffBits[i]? := by
    simp only [realloc, hs, hne, true_and, ne_eq, not_false_eq_true, if_true,
      Option.some.injEq] at hbuf
    subst hbuf
    refine ⟨by rw [List.length_map, List.length_range, hnew]; omega, fun i hi => ?_⟩
    have hrange : i < (c * WORD_SIZE).toNat / 8 := by
      rw [hnew]
      omega
    have hin : i < a.buffBits.length := by omega
    rw [List.getElem?_map, List.getElem?_range hrange, Option.map_some,
      List.getElem?_eq_getElem hin, List.getD_eq_getElem?_getD, List.getElem?_eq_getElem hin]
    rfl
  obtain ⟨hlen, hkeep⟩ := hkept
  obtain ⟨buf', hbuf'⟩ : ∃ buf', memsetZero buf a.capacity
      (c * WORD_SIZE - a.capacity * WORD_SIZE) = some buf' := by
    refine ⟨_, if_pos ?_⟩
    rw [hdiff, hlen]
    omega
  obtain ⟨hlen', hget⟩ := getElem?_memsetZero hbuf'
  refine ⟨buf, buf', hbuf, hbuf', hlen'.trans hlen, fun i hi => ?_, fun i hlo hhi => ?_⟩
  · rw [hget, hkeep i hi]
    simp only [Nat.not_le_of_lt hi, false_and, if_false, Option.map_id']
  · have hin : i < buf.length := by
      rw [hlen]
      omega
    rw [hget, List.getElem?_eq_getElem hin, Option.map_some, if_pos ⟨hlo, by rw [hdiff]; omega⟩]

/-- `b` is `a`, grown to `n` bits: the old words are kept, and the new ones are zero. -/
structure Enlarged (a : MyBitArray) (n : Word) (b : MyBitArray) : Prop extends b.WordsOk where
  bits : b.numOfBits = n
  capacity : b.capacity = a.capacity ∨ a.capacity < roundupBitsToWords n ∧
    b.capacity = roundupWord64ToPow2 (roundupBitsToWords n)
  old : ∀ i, i < a.capacity.toNat → b.buffBits[i]? = a.buffBits[i]?
  new : ∀ i, a.capacity.toNat ≤ i → i < b.capacity.toNat → b.buffBits[i]? = some 0

theorem Enlarged.room {a b : MyBitArray} {n : Word} (h : Enlarged a n b) :
    a.capacity.toNat ≤ b.capacity.toNat := by
  rcases h.capacity with heq | ⟨hlt, heq⟩
  · rw [heq]
  · rw [heq]
    exact (Nat.le_of_lt hlt).trans (roundsUp_words n).le

/-- Growing, with `realloc` succeeding and no size that wraps. The first case is the growth past
    the capacity, where the sizes given to `realloc` and `memset` are eight times the words they
    stand for. -/
theorem bitArrayResize_enlarged {h : Heap} {a : MyBitArray} {n : Word} (ha : a.WordsOk)
    (hs : h.succeeds = true) (hle : a.numOfBits.toNat ≤ n.toNat) (hn : n.toNat + 63 < 2 ^ 64)
    (hbytes : a.capacity < roundupBitsToWords n →
      (roundupWord64ToPow2 (roundupBitsToWords n)).toNat * 64 < 2 ^ 64) :
    ∃ b, bitArrayResize h a n = some (0, b) ∧ Enlarged a n b := by
  have hw := toNat_roundupBitsToWords hn
  have hwords := ha.words
  have hfits := ha.fits
  have halloc := ha.alloc
  by_cases hgt : a.capacity < roundupBitsToWords n
  · -- beyond the capacity
    have hgt' : a.capacity.toNat < (roundupBitsToWords n).toNat := hgt
    obtain ⟨c, hc⟩ : ∃ c, c = roundupWord64ToPow2 (roundupBitsToWords n) := ⟨_, rfl⟩
    have hcap : c.toNat * 64 < 2 ^ 64 := hc ▸ hbytes hgt
    have hroom : (roundupBitsToWords n).toNat ≤ c.toNat := hc ▸ (roundsUp_words n).le
    obtain ⟨buf, buf', hbuf, hbuf', hlen, hkeep, hzero⟩ :=
      realloc_memset (c := c) hs halloc (by omega) hcap
    refine ⟨⟨n, roundupBitsToWords n, c, buf'⟩, ?_, ?_⟩
    · simp only [bitArrayResize, gt_iff_lt, if_pos hgt, ← hc, hbuf, hbuf', Option.map_some]
    · refine ⟨⟨hw, hroom, ?_⟩, rfl, .inr ⟨hgt, hc⟩, hkeep, hzero⟩
      show c.toNat ≤ buf'.length
      rw [hlen]
      omega
  · -- within the capacity: only the two counts move
    have hgt' : (roundupBitsToWords n).toNat ≤ a.capacity.toNat := Nat.le_of_not_lt hgt
    have hnlt : ¬ roundupBitsToWords n < a.numOfWords := by
      intro hlt
      have hlt' : (roundupBitsToWords n).toNat < a.numOfWords.toNat := hlt
      omega
    refine ⟨{ a with numOfBits := n, numOfWords := roundupBitsToWords n }, ?_, ?_⟩
    · simp only [bitArrayResize, gt_iff_lt, if_neg hgt, if_neg hnlt]
    · exact ⟨⟨hw, hgt', halloc⟩, rfl, .inl rfl, fun _ _ => rfl,
        fun i hlo hhi => absurd hhi (Nat.not_lt_of_le hlo)⟩

/-- **Growing.** Up to 2^63 bits, with `realloc` succeeding, `bit_array_resize` to a size not
    below the present one returns 0 and keeps the invariant. -/
theorem bitArrayResize_grow {h : Heap} {a : MyBitArray} {n : Word} (ha : RunInv a)
    (hs : h.succeeds = true) (hle : a.numOfBits.toNat ≤ n.toNat) (hn : n.toNat ≤ 2 ^ 63) :
    ∃ b, bitArrayResize h a n = some (0, b) ∧ RunInv b ∧ b.numOfBits = n := by
  have hmost := roundup_words_le hn
  obtain ⟨b, hb, hg⟩ := bitArrayResize_enlarged ha.toWordsOk hs hle (by omega) fun _ => by omega
  have hroom := hg.room
  have htwo := ha.two_le
  have hwords := ha.words
  have hwords' := hg.words
  rw [hg.bits] at hwords'
  have hpow : ∃ k, b.capacity.toNat = 2 ^ k := by
    rcases hg.capacity with heq | ⟨-, heq⟩
    · exact heq ▸ ha.pow2
    · exact heq ▸ (roundsUp_words n).mem
  have hcap : b.capacity.toNat ≤ 2 ^ 57 := by
    rcases hg.capacity with heq | ⟨-, heq⟩
    · exact heq ▸ ha.cap_le
    · exact heq ▸ hmost
  refine ⟨b, hb, ⟨⟨hg.toWordsOk, hpow, by omega, fun i hlo hhi => ?_⟩,
    by rw [hg.bits]; exact hn, hcap⟩, hg.bits⟩
  by_cases hi : i < a.capacity.toNat
  · rw [hg.old i hi]
    exact ha.clear i (by omega) hi
  · exact hg.new i (Nat.le_of_not_lt hi) hhi

end CompTech.BitArray
