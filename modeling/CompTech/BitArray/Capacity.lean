import CompTech.BitArray.OutOfRange

/-!
# The capacity

`roundup_word64_to_pow2` is a rounding up as long as there is a power of two to round up to, which
is up to 2^63. Past that both corrections apply and the value is 1, a power of two like the others;
so a second rounding changes nothing, whatever the word is.

The two places that compute a capacity ask for at most 2^58 words (`roundsUp_words`). The capacity
therefore gives room for the words, and is less than twice their number unless it is the minimum.
-/

namespace CompTech.BitArray

variable {h : Heap} {a b : MyBitArray} {n v w : Word}

/-! ## Rounding up twice, and rounding up two words -/

theorem roundupWord64ToPow2_mono (hle : v ≤ w) (hw : w.toNat ≤ 2 ^ 63) :
    roundupWord64ToPow2 v ≤ roundupWord64ToPow2 w := by
  have hle' : v.toNat ≤ w.toNat := hle
  exact (roundsUp_roundupWord64ToPow2 (hle'.trans hw)).mono (roundsUp_roundupWord64ToPow2 hw) hle'

/-- Every value is a power of two that the rounding itself can take. -/
theorem roundupWord64ToPow2_mem (w : Word) : (roundupWord64ToPow2 w).toNat.isPowerOfTwo ∧
    (roundupWord64ToPow2 w).toNat ≤ 2 ^ 63 := by
  by_cases hw : w.toNat ≤ 2 ^ 63
  · have hup := roundsUp_roundupWord64ToPow2 hw
    exact ⟨hup.mem, hup.le_of_mem ⟨63, rfl⟩ hw⟩
  · rw [roundupWord64ToPow2_wrap (by bv_omega)]
    exact ⟨⟨0, rfl⟩, by decide⟩

theorem roundupWord64ToPow2_idem (w : Word) :
    roundupWord64ToPow2 (roundupWord64ToPow2 w) = roundupWord64ToPow2 w := by
  obtain ⟨hpow, hle⟩ := roundupWord64ToPow2_mem w
  have hself : Lib.RoundsUp {p | p.isPowerOfTwo} (roundupWord64ToPow2 w).toNat
      (roundupWord64ToPow2 w).toNat := .self hpow
  exact BitVec.eq_of_toNat_eq ((roundsUp_roundupWord64ToPow2 hle).unique hself)

/-! ## init and resize -/

theorem bitArrayInit_capacity (ha : bitArrayInit h n = some a) : a.numOfWords ≤ a.capacity ∧
    (1 ≤ a.numOfWords.toNat →
      a.capacity = MIN_CAPACITY ∨ a.capacity.toNat < 2 * a.numOfWords.toNat) := by
  obtain ⟨-, hwords, hcap, -⟩ := bitArrayInit_fields ha
  have hup := roundsUp_words n
  have hroom := hup.le
  refine ⟨?_, fun hpos => ?_⟩
  · show a.numOfWords.toNat ≤ a.capacity.toNat
    rw [hwords]
    omega
  · rw [hwords] at hpos ⊢
    have htwice := hup.lt_two_mul hpos
    rcases max_choice 2 (roundupWord64ToPow2 (roundupBitsToWords n)).toNat with hmin | hmax
    · exact .inl (BitVec.eq_of_toNat_eq (hcap.trans hmin))
    · rw [hcap, hmax]
      exact .inr htwice

/-- A resize within the capacity keeps it; one beyond computes it anew, with or without memory. -/
theorem bitArrayResize_capacity {r : Nat} (hr : bitArrayResize h a n = some (r, b)) :
    b.numOfWords ≤ b.capacity ∧
    (a.capacity < roundupBitsToWords n → b.capacity.toNat < 2 * b.numOfWords.toNat) := by
  obtain ⟨-, hwords, hcases⟩ := bitArrayResize_cases hr
  have hup := roundsUp_words n
  have hbeyond : a.capacity < roundupBitsToWords n →
      b.capacity = roundupWord64ToPow2 (roundupBitsToWords n) →
      b.numOfWords ≤ b.capacity ∧ b.capacity.toNat < 2 * b.numOfWords.toNat := by
    intro hlt hcap
    have hlt' : a.capacity.toNat < (roundupBitsToWords n).toNat := hlt
    rw [hwords, hcap]
    exact ⟨hup.le, hup.lt_two_mul (by omega)⟩
  cases hcases with
  | failed hlt _ hcap => exact ⟨(hbeyond hlt hcap).1, fun _ => (hbeyond hlt hcap).2⟩
  | grown hlt _ hcap => exact ⟨(hbeyond hlt hcap).1, fun _ => (hbeyond hlt hcap).2⟩
  | within hle hcap =>
    refine ⟨?_, fun hlt => absurd hlt (BitVec.not_lt.mpr hle)⟩
    rw [hwords, hcap]
    exact hle

/-- **Rounding up, and the capacity.** The least power of two that is not below `w`, and 1 for 0:
    monotone up to 2^63, and idempotent. What `bit_array_init` and `bit_array_resize` compute from
    it holds the words, and is less than twice as much, apart from the minimum. The shifts spread
    the highest bit of `w - 1` over all lower places; one more is a power of two, or 0 where the sum
    wraps, and that is put right by the last line. -/
theorem roundup_capacity :
    (∀ w : Word, 1 ≤ w.toNat → w.toNat ≤ 2 ^ 63 →
      IsLeast {p : ℕ | p.isPowerOfTwo ∧ w.toNat ≤ p} (roundupWord64ToPow2 w).toNat) ∧
    roundupWord64ToPow2 0 = 1 ∧
    (∀ v w : Word, v ≤ w → w.toNat ≤ 2 ^ 63 →
      roundupWord64ToPow2 v ≤ roundupWord64ToPow2 w) ∧
    (∀ w : Word, roundupWord64ToPow2 (roundupWord64ToPow2 w) = roundupWord64ToPow2 w) ∧
    (∀ (h : Heap) (n : Word) (a : MyBitArray), bitArrayInit h n = some a →
      a.numOfWords ≤ a.capacity ∧ (1 ≤ a.numOfWords.toNat →
        a.capacity = MIN_CAPACITY ∨ a.capacity.toNat < 2 * a.numOfWords.toNat)) ∧
    ∀ (h : Heap) (a b : MyBitArray) (n : Word) (r : Nat), bitArrayResize h a n = some (r, b) →
      b.numOfWords ≤ b.capacity ∧
        (a.capacity < roundupBitsToWords n → b.capacity.toNat < 2 * b.numOfWords.toNat) :=
  ⟨fun _ _ hw => roundsUp_roundupWord64ToPow2 hw, roundupWord64ToPow2_zero,
    fun _ _ => roundupWord64ToPow2_mono, roundupWord64ToPow2_idem,
    fun _ _ _ => bitArrayInit_capacity, fun _ _ _ _ _ => bitArrayResize_capacity⟩

/-- The tests resize an array of 150 bits to 200; 4 words are the capacity of both. -/
theorem roundup_capacity_tests : IsLeast {p : ℕ | p.isPowerOfTwo ∧ 3 ≤ p} 4 :=
  roundup_capacity.1 3 (by decide) (by decide)

end CompTech.BitArray
