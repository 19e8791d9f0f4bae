import Mathlib

/-!
# Rounding up

To round `a` up into a set `S` is to take the least element of `S` that is not below `a`. Whatever
`S` is, that is monotone, leaves the elements of `S` alone (so that a second rounding changes
nothing), and has one value at most.

Into the powers of two it always has one: `2` to the length of `n - 1` in binary
(`roundsUp_two_pow`), which is less than twice `n` unless `n` is 0 (`RoundsUp.lt_two_mul`).
-/

namespace Lib

/-- `p` is the least element of `S` that is at least `a`. -/
def RoundsUp {α : Type*} [LE α] (S : Set α) (a p : α) : Prop := IsLeast {x | x ∈ S ∧ a ≤ x} p

namespace RoundsUp

section

variable {α : Type*} [PartialOrder α] {S : Set α} {a b p q : α}

theorem mem (h : RoundsUp S a p) : p ∈ S := h.1.1

theorem le (h : RoundsUp S a p) : a ≤ p := h.1.2

theorem le_of_mem (h : RoundsUp S a p) (hq : q ∈ S) (hle : a ≤ q) : p ≤ q := h.2 ⟨hq, hle⟩

theorem mono (h : RoundsUp S a p) (h' : RoundsUp S b q) (hab : a ≤ b) : p ≤ q :=
  h.le_of_mem h'.mem (hab.trans h'.le)

theorem unique (h : RoundsUp S a p) (h' : RoundsUp S a q) : p = q := IsLeast.unique h h'

theorem self (ha : a ∈ S) : RoundsUp S a a := ⟨⟨ha, le_refl a⟩, fun _ hx => hx.2⟩

end

end RoundsUp

/-! ## Powers of two -/

theorem roundsUp_two_pow (n : ℕ) : RoundsUp {p | p.isPowerOfTwo} n (2 ^ (n - 1).size) := by
  constructor
  · refine ⟨⟨_, rfl⟩, ?_⟩
    have hlt := Nat.lt_size_self (n - 1)
    omega
  · rintro p ⟨⟨k, rfl⟩, hle⟩
    refine Nat.pow_le_pow_right (by omega) (Nat.size_le.mpr ?_)
    have hpos : 0 < 2 ^ k := Nat.two_pow_pos k
    omega

/-- Half of the power would be too small. -/
theorem RoundsUp.lt_two_mul {n p : ℕ} (h : RoundsUp {p | p.isPowerOfTwo} n p) (hn : 1 ≤ n) :
    p < 2 * n := by
  obtain ⟨k, rfl⟩ : p.isPowerOfTwo := h.mem
  cases k with
  | zero => omega
  | succ k =>
    have hhalf : 2 ^ k < n := by
      by_contra hge
      have hle : 2 ^ (k + 1) ≤ 2 ^ k := h.le_of_mem ⟨k, rfl⟩ (Nat.le_of_not_lt hge)
      exact absurd hle (Nat.not_le_of_lt (Nat.pow_lt_pow_succ (by omega)))
    rw [Nat.pow_succ]
    omega

end Lib
