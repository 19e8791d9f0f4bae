import CompTech.BitArray.Growth

/-!
# Calls out of range

An index out of range sends each of the four single-bit calls to `bit_array_resize`, and nothing
else happens: `bitArrayResize_cases` says what it can leave. Three results follow.

* The write is lost (`outOfRange_lost`): the array is grown to `index` bits, so that `index` is
  still out of range, and the call returns.
* The sizes are exact as long as the rounding up to words does not wrap, which it does for the
  top 63 values only (`sizes_exact_iff`). The number of bytes never wraps without `realloc`
  failing.
* A growth that fails has already changed the three counts (`failed_growth_changes`).
-/

namespace CompTech.BitArray

open MyBitArray

variable {h : Heap} {a b : MyBitArray} {n : Word} {shl : Word → Option Word} {c : Call}
  {index : Word}

/-! ## What a resize leaves

The case analysis of `bit_array_resize`, once. The number of bits and of words is the new one in
every case, also where `realloc` fails. -/

/-- The bytes `bit_array_resize` asks `realloc` for, where it does. -/
def resizeRequest (a : MyBitArray) (n : Word) : Option Word :=
  if roundupBitsToWords n > a.capacity then
    some (roundupWord64ToPow2 (roundupBitsToWords n) * WORD_SIZE)
  else
    none

/-- `realloc` is called and returns `NULL`. -/
def ReallocFails (h : Heap) (a : MyBitArray) (n : Word) : Prop :=
  ∃ bytes, resizeRequest a n = some bytes ∧ realloc h a.buffBits bytes = none

/-- The three ways a resize ends: `realloc` fails, `realloc` succeeds, or it is not called. -/
inductive Resized (h : Heap) (a : MyBitArray) (n : Word) : Nat → MyBitArray → Prop
  | failed {b : MyBitArray} : a.capacity < roundupBitsToWords n → ReallocFails h a n →
      b.capacity = roundupWord64ToPow2 (roundupBitsToWords n) → Resized h a n 1 b
  | grown {b : MyBitArray} : a.capacity < roundupBitsToWords n → ¬ReallocFails h a n →
      b.capacity = roundupWord64ToPow2 (roundupBitsToWords n) → Resized h a n 0 b
  | within {b : MyBitArray} : roundupBitsToWords n ≤ a.capacity → b.capacity = a.capacity →
      Resized h a n 0 b

theorem resizeRequest_of_lt (hlt : a.capacity < roundupBitsToWords n) :
    resizeRequest a n = some (roundupWord64ToPow2 (roundupBitsToWords n) * WORD_SIZE) :=
  if_pos hlt

theorem bitArrayResize_cases {r : Nat} (hr : bitArrayResize h a n = some (r, b)) :
    b.numOfBits = n ∧ b.numOfWords = roundupBitsToWords n ∧ Resized h a n r b := by
  unfold bitArrayResize at hr
  dsimp only at hr
  split at hr
  · rename_i hlt
    have hreq := resizeRequest_of_lt (n := n) hlt
    cases hrealloc : realloc h a.buffBits
        (roundupWord64ToPow2 (roundupBitsToWords n) * WORD_SIZE) with
    | none =>
      rw [hrealloc] at hr
      simp only [Option.some.injEq, Prod.mk.injEq] at hr
      obtain ⟨rfl, rfl⟩ := hr
      have hfails : ReallocFails h a n := ⟨_, hreq, hrealloc⟩
      split <;> exact ⟨rfl, rfl, .failed hlt hfails rfl⟩
    | some buf =>
      rw [hrealloc] at hr
      obtain ⟨buf', -, heq⟩ := Option.map_eq_some_iff.mp hr
      simp only [Prod.mk.injEq] at heq
      obtain ⟨rfl, rfl⟩ := heq
      refine ⟨rfl, rfl, .grown hlt ?_ rfl⟩
      rintro ⟨bytes, hbytes, hnone⟩
      rw [hreq, Option.some.injEq] at hbytes
      rw [← hbytes, hrealloc] at hnone
      cases hnone
  · rename_i hge
    have hwithin : roundupBitsToWords n ≤ a.capacity := BitVec.not_lt.mp hge
    split at hr
    · obtain ⟨buf, -, heq⟩ := Option.map_eq_some_iff.mp hr
      simp only [Prod.mk.injEq] at heq
      obtain ⟨rfl, rfl⟩ := heq
      exact ⟨rfl, rfl, .within hwithin rfl⟩
    · simp only [Option.some.injEq, Prod.mk.injEq] at hr
      obtain ⟨rfl, rfl⟩ := hr
      exact ⟨rfl, rfl, .within hwithin rfl⟩

/-! ## The write is lost -/

/-- The call makes position `i` valid, with the value `v`, and keeps the bits there were. -/
def TakesEffect (call : MyBitArray → Word → Option MyBitArray) (v : Bool) (a : MyBitArray)
    (i : Word) : Prop :=
  ∃ b, call a i = some b ∧ i.toNat + 1 ≤ b.numOfBits.toNat ∧ b.bit i.toNat = v ∧
    ∀ j, j < a.numOfBits.toNat → b.bit j = a.bit j

theorem bitArrayUpdateBit_of_le (op : Word → Word → Word) (hge : a.numOfBits ≤ index) :
    bitArrayUpdateBit op shl h a index = (bitArrayResize h a index).map (·.2) :=
  if_pos hge

/-- After a resize to `i` bits position `i` is not valid. -/
theorem not_takesEffect (op : Word → Word → Word) (v : Bool) (hge : a.numOfBits ≤ index) :
    ¬TakesEffect (bitArrayUpdateBit op shl h) v a index := by
  rintro ⟨b, hb, hvalid, -⟩
  rw [bitArrayUpdateBit_of_le op hge] at hb
  obtain ⟨⟨r, b'⟩, hr, rfl⟩ := Option.map_eq_some_iff.mp hb
  obtain ⟨hbits, -⟩ := bitArrayResize_cases hr
  rw [show (r, b').2.numOfBits = index from hbits] at hvalid
  omega

/-- **A write out of range is lost.** With sizes that do not wrap and the allocation succeeding, the
    three writing calls all leave the array grown to `i` bits, with the bits it had: none of them
    takes effect at `i`. `bit_array_resize` is asked for `index` bits and not for one more, so that
    position `index` is out of range still; and the answer of the resize is not looked at, the call
    returns. -/
theorem outOfRange_lost {i : Word} (ha : a.WordsOk) (hs : h.succeeds = true)
    (hge : a.numOfBits ≤ i) (hfit : SizesFit a i) :
    (∃ b, bitArraySetBit shl h a i = some b ∧ bitArrayClearBit shl h a i = some b ∧
      bitArrayToggleBit shl h a i = some b ∧ b.numOfBits = i ∧
      ∀ j, j < a.numOfBits.toNat → b.bit j = a.bit j) ∧
    ¬TakesEffect (bitArraySetBit shl h) true a i ∧
    ¬TakesEffect (bitArrayToggleBit shl h) true a i ∧
    ¬TakesEffect (bitArrayClearBit shl h) false a i := by
  refine ⟨?_, not_takesEffect _ _ hge, not_takesEffect _ _ hge, not_takesEffect _ _ hge⟩
  obtain ⟨b, hb, hbits, hg⟩ := bitArrayResize_grown ha hs hge hfit
  have hcall : ∀ op, bitArrayUpdateBit op shl h a i = some b := fun op => by
    rw [bitArrayUpdateBit_of_le op hge, hb]
    rfl
  have hwords := ha.words
  have hfits := ha.fits
  exact ⟨b, hcall _, hcall _, hcall _, hbits, fun j hj => hg.old j (by omega)⟩

/-- The call of the tests, on an array of 150 bits. -/
theorem outOfRange_lost_tests :
    ¬TakesEffect (bitArraySetBit shlOne quietHeap) true ⟨150, 3, 4, [0, 0, 0, 0]⟩ 200 :=
  (outOfRange_lost (h := quietHeap) (a := ⟨150, 3, 4, [0, 0, 0, 0]⟩) (i := 200)
    ⟨by decide, by decide, by decide⟩ rfl (by decide) ⟨by decide, fun _ => by decide⟩).2.1

theorem setBit_outOfRange : ¬ ∀ (h : Heap) (a : MyBitArray) (i : Word), a.WordsOk →
    h.succeeds = true → a.numOfBits ≤ i → SizesFit a i →
      TakesEffect (bitArraySetBit shlOne h) true a i := by
  intro hall
  obtain ⟨b, hb, hvalid, -⟩ := hall quietHeap ⟨150, 3, 4, [0, 0, 0, 0]⟩ 200
    ⟨by decide, by decide, by decide⟩ rfl (by decide) ⟨by decide, fun _ => by decide⟩
  have hrun : bitArraySetBit shlOne quietHeap ⟨150, 3, 4, [0, 0, 0, 0]⟩ 200 =
      some ⟨200, 4, 4, [0, 0, 0, 0]⟩ := by decide
  rw [hrun, Option.some.injEq] at hb
  rw [← hb] at hvalid
  exact absurd hvalid (by decide)

/-! ## The sizes -/

/-- The bytes `bit_array_init` asks `calloc` for, in two factors that `calloc` multiplies itself. -/
def initRequest (n : Word) : Nat :=
  let word64ToPow2 := roundupWord64ToPow2 (roundupBitsToWords n)
  let capacity := if word64ToPow2 > MIN_CAPACITY then word64ToPow2 else MIN_CAPACITY
  capacity.toNat * 8

/-- The counts fit each other as exact integers, and what was asked for holds the capacity. -/
structure SizesExact (a : MyBitArray) (request : Option Nat) : Prop where
  words : a.numOfBits.toNat ≤ 64 * a.numOfWords.toNat
  fits : a.numOfWords.toNat ≤ a.capacity.toNat
  bytes : ∀ r ∈ request, 8 * a.capacity.toNat ≤ r

theorem roundupBitsToWords_wrap (hn : 2 ^ 64 ≤ n.toNat + 63) : roundupBitsToWords n = 0 := by
  have hlt := n.isLt
  have hw : WORD_SIZE = 64#64 := rfl
  have hsum : (n + WORD_SIZE - 1).toNat = n.toNat + 63 - 2 ^ 64 := by
    rw [hw]
    bv_omega
  refine BitVec.eq_of_toNat_eq ?_
  rw [roundupBitsToWords, BitVec.toNat_udiv, hsum, toNat_WORD_SIZE]
  show _ = 0
  omega

/-- The words suffice for the bits exactly if the rounding does not wrap. -/
theorem words_exact_iff :
    n.toNat ≤ 64 * (roundupBitsToWords n).toNat ↔ n.toNat + 63 < 2 ^ 64 := by
  constructor
  · intro hle
    by_contra hwrap
    rw [roundupBitsToWords_wrap (Nat.le_of_not_lt hwrap)] at hle
    have hzero : (0 : Word).toNat = 0 := rfl
    omega
  · intro hn
    rw [toNat_roundupBitsToWords hn]
    omega

theorem initRequest_eq (ha : bitArrayInit h n = some a) :
    initRequest n = a.capacity.toNat * 8 := by
  simp only [bitArrayInit] at ha
  split at ha
  · rw [Option.some.injEq] at ha
    rw [← ha]
    rfl
  · cases ha

theorem sizesExact_init_iff (ha : bitArrayInit h n = some a) :
    SizesExact a (some (initRequest n)) ↔ n.toNat + 63 < 2 ^ 64 := by
  obtain ⟨hbits, hwords, hcap, -⟩ := bitArrayInit_fields ha
  rw [← words_exact_iff]
  constructor
  · intro hs
    have hle := hs.words
    rwa [hbits, hwords] at hle
  · intro hle
    have hroom := (roundsUp_words n).le
    refine ⟨by rw [hbits, hwords]; exact hle, by rw [hwords]; omega, fun r hr => ?_⟩
    rw [Option.mem_some_iff, initRequest_eq ha] at hr
    omega

/-- A resize that returns 0: `realloc` was not asked for 0 bytes, so their number has not
    wrapped. -/
theorem sizesExact_resize_iff (hr : bitArrayResize h a n = some (0, b)) :
    SizesExact b ((resizeRequest a n).map BitVec.toNat) ↔ n.toNat + 63 < 2 ^ 64 := by
  obtain ⟨hbits, hwords, hcases⟩ := bitArrayResize_cases hr
  rw [← words_exact_iff]
  constructor
  · intro hs
    have hle := hs.words
    rwa [hbits, hwords] at hle
  · intro hle
    have hmost : (roundupWord64ToPow2 (roundupBitsToWords n)).toNat ≤ 2 ^ 58 :=
      (roundsUp_words n).le_of_mem ⟨58, rfl⟩ (roundupBitsToWords_le n)
    refine ⟨by rw [hbits, hwords]; exact hle, ?_, ?_⟩
    · cases hcases with
      | grown _ _ hcap =>
        rw [hwords, hcap]
        exact (roundsUp_words n).le
      | within hwithin hcap =>
        rw [hwords, hcap]
        exact hwithin
    · intro r hmem
      obtain ⟨bytes, hbytes, rfl⟩ := Option.mem_map.mp hmem
      cases hcases with
      | grown hlt hnot hcap =>
        rw [Option.mem_def, resizeRequest_of_lt hlt, Option.some.injEq] at hbytes
        rw [hcap, ← hbytes, BitVec.toNat_mul, toNat_WORD_SIZE]
        have hne : (roundupWord64ToPow2 (roundupBitsToWords n) * WORD_SIZE).toNat ≠ 0 := by
          intro hzero
          refine hnot ⟨_, resizeRequest_of_lt hlt, if_neg fun hok => hok.2 ?_⟩
          exact BitVec.eq_of_toNat_eq hzero
        rw [BitVec.toNat_mul, toNat_WORD_SIZE] at hne
        omega
      | within hwithin _ =>
        rw [Option.mem_def, resizeRequest, if_neg (BitVec.not_lt.mpr hwithin)] at hbytes
        cases hbytes

/-- **The sizes at the 64-bit limit.** What `bit_array_init` and a resize that returns 0 leave is
    exact, and so is what they ask for, exactly if rounding the bits up to words does not wrap. With
    the last 63 numbers of bits the sum wraps, and its quotient is too small, and so are the
    capacity and the block. A size in bytes that wraps is 0, and `realloc` gives nothing for it. -/
theorem sizes_exact_iff (shl : Word → Option Word) (h : Heap) (n : Word) (c : Call) :
    (∀ a, bitArrayInit h n = some a →
      (SizesExact a (some (initRequest n)) ↔ n.toNat + 63 < 2 ^ 64)) ∧
    ∀ a b, c.index = some n → a.numOfBits ≤ n → bitArrayResize h a n = some (0, b) →
      c.applyWith shl h a = some b ∧
        (SizesExact b ((resizeRequest a n).map BitVec.toNat) ↔ n.toNat + 63 < 2 ^ 64) := by
  refine ⟨fun a ha => sizesExact_init_iff ha, fun a b hc hge hr =>
    ⟨?_, sizesExact_resize_iff hr⟩⟩
  rw [applyWith_of_le hc hge, hr]
  rfl

/-- `bit_array_construct (-1)`, the first array of the tests, has no words at all. -/
theorem construct_minusOne : ¬ ∀ (h : Heap) (n : Word) (a : MyBitArray),
    bitArrayInit h n = some a → SizesExact a (some (initRequest n)) := by
  intro hall
  have hrun : bitArrayInit quietHeap (-1) = some ⟨-1, 0, 2, [0, 0]⟩ := by decide
  exact absurd (hall quietHeap (-1) _ hrun).words (by decide)

/-! ## A growth that fails -/

theorem ReallocFails.lt (hf : ReallocFails h a n) : a.capacity < roundupBitsToWords n := by
  obtain ⟨bytes, hbytes, -⟩ := hf
  unfold resizeRequest at hbytes
  split at hbytes
  · assumption
  · cases hbytes

theorem ReallocFails.resize (hf : ReallocFails h a n) :
    ∃ b, bitArrayResize h a n = some (1, b) := by
  have hlt := hf.lt
  obtain ⟨bytes, hbytes, hnone⟩ := hf
  rw [resizeRequest_of_lt hlt, Option.some.injEq] at hbytes
  rw [← hbytes] at hnone
  simp only [bitArrayResize, gt_iff_lt, if_pos hlt, hnone]
  exact ⟨_, rfl⟩

/-- The last position of the size that was not reached lies behind the old capacity. -/
theorem ReallocFails.behind (hf : ReallocFails h a index) :
    index - 1 < index ∧ a.capacity.toNat ≤ (index - 1).toNat / 64 := by
  have hlt : a.capacity.toNat < (roundupBitsToWords index).toNat := hf.lt
  have hn : index.toNat + 63 < 2 ^ 64 := by
    by_contra hwrap
    rw [roundupBitsToWords_wrap (Nat.le_of_not_lt hwrap)] at hlt
    exact Nat.not_lt_zero _ hlt
  rw [toNat_roundupBitsToWords hn] at hlt
  have hpred : (index - 1).toNat = index.toNat - 1 := by bv_omega
  refine ⟨?_, by omega⟩
  show (index - 1).toNat < index.toNat
  omega

/-- **A failed growth changes the array.** Whenever `realloc` fails, `capacity` has grown without
    the buffer, and a position that is now in range lies behind the old capacity. The three fields
    are stored before `realloc` is called and only the pointer is put back. -/
theorem failed_growth_changes (hc : c.index = some index) (hge : a.numOfBits ≤ index)
    (hf : ReallocFails h a index) :
    ∃ b, c.applyWith shl h a = some b ∧ b ≠ a ∧ a.capacity < b.capacity ∧
      ∃ i : Word, i < b.numOfBits ∧ a.capacity.toNat ≤ i.toNat / 64 := by
  obtain ⟨b, hb⟩ := hf.resize
  obtain ⟨hbits, -, hcases⟩ := bitArrayResize_cases hb
  have hgrown : a.capacity < b.capacity := by
    have hroom := (roundsUp_words index).le
    cases hcases with
    | failed hlt _ hcap =>
      rw [hcap]
      exact Nat.lt_of_lt_of_le hlt hroom
  refine ⟨b, ?_, ?_, hgrown, index - 1, by rw [hbits]; exact hf.behind.1, hf.behind.2⟩
  · rw [applyWith_of_le hc hge, hb]
    rfl
  · rintro rfl
    exact Nat.lt_irrefl _ hgrown

/-- The allocator has nothing left. -/
def fullHeap : Heap := ⟨false, fun _ => 0⟩

theorem failed_growth_twoHundred : ∃ b,
    (Call.setBit 200).applyWith shlOne fullHeap ⟨64, 1, 2, [0, 0]⟩ = some b ∧
      b ≠ ⟨64, 1, 2, [0, 0]⟩ ∧ 2 < b.capacity ∧
      ∃ i : Word, i < b.numOfBits ∧ (2#64).toNat ≤ i.toNat / 64 :=
  failed_growth_changes (a := ⟨64, 1, 2, [0, 0]⟩) (h := fullHeap) rfl (by decide)
    ⟨256, by decide, by decide⟩

/-- After the failed `bit_array_set_bit (ba, 200)` the array says it has 200 bits. -/
theorem failed_growth_kept : ¬ ∀ (h : Heap) (a : MyBitArray) (c : Call) (index : Word),
    a.WordsOk → c.index = some index → a.numOfBits ≤ index → ReallocFails h a index →
      c.applyWith shlOne h a = some a := by
  intro hall
  have hkept := hall fullHeap ⟨64, 1, 2, [0, 0]⟩ (.setBit 200) 200
    ⟨by decide, by decide, by decide⟩ rfl (by decide) ⟨256, by decide, by decide⟩
  have hrun : (Call.setBit 200).applyWith shlOne fullHeap ⟨64, 1, 2, [0, 0]⟩ =
      some ⟨200, 4, 4, [0, 0]⟩ := by decide
  rw [hrun] at hkept
  exact absurd hkept (by decide)

end CompTech.BitArray
