import Mathlib

/-!
# Rounds over a table

Work number `i` goes to column `i % k` of a table of `k` columns, and within the column to row
`i / k % p`: one row after another, and from the start again when the table is full. The cell of `i`
depends on `i` modulo `k * p` only, and two numbers of one round have different cells; so every
cell gets its share, up to one.
-/

namespace Lib

variable {k p i j : Nat}

/-- The cell of number `i`: its column, and the row in it. -/
def place (k p i : Nat) : Nat × Nat := (i % k, i / k % p)

theorem place_mod (k p i : Nat) : place k p (i % (k * p)) = place k p i := by
  rw [place, place, Nat.mod_mul_right_mod, Nat.mod_mul_right_div_self, Nat.mod_mod]

/-- Every cell has its number in the first round. -/
theorem place_mul_add {m n : Nat} (hm : m < k) (hn : n < p) : place k p (n * k + m) = (m, n) := by
  have hk : 0 < k := by omega
  rw [place, Nat.mul_comm n k, Nat.mul_add_mod, Nat.mod_eq_of_lt hm, Nat.mul_add_div hk,
    Nat.div_eq_of_lt hm, Nat.add_zero, Nat.mod_eq_of_lt hn]

/-- Within one round. -/
theorem place_inj (hi : i < k * p) (hj : j < k * p) (h : place k p i = place k p j) : i = j := by
  obtain ⟨hcol, hrow⟩ := Prod.mk.inj h
  rw [Nat.mod_eq_of_lt (Nat.div_lt_of_lt_mul hi), Nat.mod_eq_of_lt (Nat.div_lt_of_lt_mul hj)]
    at hrow
  rw [← Nat.div_add_mod i k, hcol, hrow, Nat.div_add_mod]

theorem place_eq_iff (hk : 0 < k) (hp : 0 < p) :
    place k p i = place k p j ↔ i ≡ j [MOD k * p] := by
  have hpos : 0 < k * p := Nat.mul_pos hk hp
  constructor
  · intro h
    rw [← place_mod k p i, ← place_mod k p j] at h
    exact place_inj (Nat.mod_lt i hpos) (Nat.mod_lt j hpos) h
  · intro h
    rw [← place_mod k p i, ← place_mod k p j, show i % (k * p) = j % (k * p) from h]

/-- How often the first `n` numbers come to the cell of `i`. -/
theorem count_place (hk : 0 < k) (hp : 0 < p) (n i : Nat) :
    n.count (fun j => place k p j = place k p i) =
      n / (k * p) + if i % (k * p) < n % (k * p) then 1 else 0 := by
  rw [← Nat.count_modEq_card n (Nat.mul_pos hk hp) i]
  simp only [place_eq_iff hk hp]

/-- A share is rounded down or up. -/
theorem count_place_cases (hk : 0 < k) (hp : 0 < p) (n i : Nat) :
    n.count (fun j => place k p j = place k p i) = n / (k * p) ∨
    n.count (fun j => place k p j = place k p i) = (n + k * p - 1) / (k * p) := by
  rw [count_place hk hp]
  have hpos : 0 < k * p := Nat.mul_pos hk hp
  split
  · rename_i hlt
    right
    have hmod : n % (k * p) < k * p := Nat.mod_lt n hpos
    rw [← Nat.div_add_mod n (k * p), Nat.add_assoc, Nat.add_sub_assoc (by omega),
      Nat.mul_add_div hpos, Nat.mul_add_div hpos, Nat.mod_div_self, Nat.add_zero]
    congr 1
    exact (Nat.div_eq_of_lt_le (by omega) (by omega)).symm
  · exact .inl rfl

end Lib
