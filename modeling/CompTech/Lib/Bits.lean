import Mathlib

/-!
# Bits of a fixed-width word

Three facts about machine words that hold at every width.

*Smearing.* `y ||| (y >>> j)` copies every set bit `j` places down. Repeating it with
`j = 1, 2, 4, …` fills every place below the highest set bit; `SmearedBy x k y` is the
invariant of that cascade (`y` has bit `i` exactly when `x` has one of the `k` bits from `i`
up), one step of it is `SmearedBy.step`, and once `k` covers the width the result is the
all-ones number just below a power of two (`SmearedBy.toNat_eq`).

*A shifted literal.* `1 << k` written with a narrow signed literal is a narrow word that is
sign-extended to the wide one. `getLsbD_signExtend_one` reads its bits: the one at `k`, and
all the places above as well when `k` is the narrow sign bit.

*Assembling a word.* `low i x` keeps the `i` lowest places of `x`; setting or clearing place `i`
after the bit of `x` there takes it to `low (i + 1) x`.
-/

namespace Lib

variable {w : Nat}

/-! ## Smearing -/

/-- `y` has bit `i` exactly when `x` has one of the bits `i, …, i + k - 1`. -/
def SmearedBy (x : BitVec w) (k : Nat) (y : BitVec w) : Prop :=
  ∀ i, y.getLsbD i = true ↔ ∃ d, d < k ∧ x.getLsbD (i + d) = true

theorem SmearedBy.one (x : BitVec w) : SmearedBy x 1 x := by
  intro i
  constructor
  · intro h; exact ⟨0, by omega, by simpa using h⟩
  · rintro ⟨d, hd, h⟩
    obtain rfl : d = 0 := by omega
    simpa using h

/-- One step of the cascade: shifting by at most what is already covered leaves no gap. -/
theorem SmearedBy.step {x y : BitVec w} {k j : Nat} (h : SmearedBy x k y) (hj : j ≤ k) :
    SmearedBy x (k + j) (y ||| (y >>> j)) := by
  intro i
  rw [BitVec.getLsbD_or, BitVec.getLsbD_ushiftRight, Bool.or_eq_true, h i, h (j + i)]
  constructor
  · rintro (⟨d, hd, hx⟩ | ⟨d, hd, hx⟩)
    · exact ⟨d, by omega, hx⟩
    · refine ⟨j + d, by omega, ?_⟩
      rwa [show i + (j + d) = j + i + d by omega]
  · rintro ⟨d, hd, hx⟩
    by_cases hdk : d < k
    · exact Or.inl ⟨d, hdk, hx⟩
    · refine Or.inr ⟨d - j, by omega, ?_⟩
      rwa [show j + i + (d - j) = i + d by omega]

/-- A number has a bit at or above `i` exactly when it is at least `2 ^ i`. -/
theorem exists_testBit_iff {n i : Nat} : (∃ d, n.testBit (i + d) = true) ↔ i < n.size := by
  rw [Nat.lt_size]
  constructor
  · rintro ⟨d, h⟩
    exact (Nat.pow_le_pow_right (by omega) (by omega)).trans (Nat.ge_two_pow_of_testBit h)
  · intro h
    obtain ⟨j, hj, hb⟩ := Nat.exists_ge_and_testBit_of_ge_two_pow h
    exact ⟨j - i, by rwa [show i + (j - i) = j by omega]⟩

/-- A cascade that covers the whole width ends at the all-ones number below a power of two. -/
theorem SmearedBy.toNat_eq {x y : BitVec w} {k : Nat} (h : SmearedBy x k y) (hk : w ≤ k) :
    y.toNat = 2 ^ x.toNat.size - 1 := by
  refine Nat.eq_of_testBit_eq fun i => ?_
  rw [Nat.testBit_two_pow_sub_one, Bool.eq_iff_iff, decide_eq_true_iff,
    ← exists_testBit_iff, BitVec.testBit_toNat, h i]
  constructor
  · rintro ⟨d, _, hx⟩
    exact ⟨d, by rwa [BitVec.testBit_toNat]⟩
  · rintro ⟨d, hx⟩
    rw [BitVec.testBit_toNat] at hx
    exact ⟨d, by have := BitVec.lt_of_getLsbD hx; omega, hx⟩

/-! ## A shifted literal, sign-extended -/

theorem getLsbD_one_shiftLeft {k i : Nat} (hk : k < w) :
    ((1#w) <<< k).getLsbD i = decide (i = k) := by
  rw [BitVec.getLsbD_shiftLeft, BitVec.getLsbD_one, Bool.eq_iff_iff]
  simp only [Bool.and_eq_true, decide_eq_true_iff, Bool.not_eq_true', decide_eq_false_iff_not]
  constructor
  · rintro ⟨⟨_, hge⟩, _, hi⟩; omega
  · rintro rfl; omega

/-- The bits of `1 << k` computed at width `w` and sign-extended to width `v`. -/
theorem getLsbD_signExtend_one {v k i : Nat} (hk : k < w) (hi : i < v) :
    (((1#w) <<< k).signExtend v).getLsbD i =
      if i < w then decide (i = k) else decide (k = w - 1) := by
  rw [BitVec.getLsbD_signExtend, BitVec.msb_eq_getLsbD_last, getLsbD_one_shiftLeft hk,
    getLsbD_one_shiftLeft hk]
  simp only [hi, decide_true, Bool.true_and, eq_comm]

/-! ## Assembling a word -/

/-- The `i` lowest places of `x`. -/
def low (i : Nat) (x : BitVec w) : BitVec w := (x.setWidth i).setWidth w

theorem getLsbD_low {i k : Nat} {x : BitVec w} (hk : k < w) :
    (low i x).getLsbD k = (decide (k < i) && x.getLsbD k) := by
  simp [low, BitVec.getLsbD_setWidth, hk]

theorem low_zero (x : BitVec w) : low 0 x = 0 := by
  refine BitVec.eq_of_getLsbD_eq fun k hk => ?_
  simp [getLsbD_low hk]

theorem low_self (x : BitVec w) : low w x = x := by
  refine BitVec.eq_of_getLsbD_eq fun k hk => ?_
  rw [getLsbD_low hk, decide_eq_true hk, Bool.true_and]

theorem low_set {i : Nat} {x : BitVec w} (hi : i < w) (hx : x.getLsbD i = true) :
    low i x ||| (1#w <<< i) = low (i + 1) x := by
  refine BitVec.eq_of_getLsbD_eq fun k hk => ?_
  rw [BitVec.getLsbD_or, getLsbD_low hk, getLsbD_one_shiftLeft hi, getLsbD_low hk]
  rcases Nat.lt_trichotomy k i with h | rfl | h
  · simp [h, Nat.ne_of_lt h, Nat.lt_succ_of_lt h]
  · simp [hx]
  · simp [Nat.not_lt_of_gt h, Nat.ne_of_gt h, show ¬k < i + 1 by omega]

theorem low_clear {i : Nat} {x : BitVec w} (hi : i < w) (hx : x.getLsbD i = false) :
    low i x &&& ~~~(1#w <<< i) = low (i + 1) x := by
  refine BitVec.eq_of_getLsbD_eq fun k hk => ?_
  rw [BitVec.getLsbD_and, BitVec.getLsbD_not, getLsbD_low hk, getLsbD_one_shiftLeft hi,
    getLsbD_low hk]
  rcases Nat.lt_trichotomy k i with h | rfl | h
  · simp [h, hk, Nat.ne_of_lt h, Nat.lt_succ_of_lt h]
  · simp [hx]
  · simp [Nat.not_lt_of_gt h, show ¬k < i + 1 by omega]

end Lib
