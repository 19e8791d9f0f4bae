import Mathlib

/-!
# Records and cache lines

Memory is cut into lines of `L` bytes; byte `x` is in line `x / L`. Two records of `size` bytes at
the addresses `a` and `b` share a line when some line has bytes of both. `LaidOut` is what an array
of records needs that several threads write to: all of it inside one block, no line shared.

Records at a stride share no line when the block and the stride are aligned to lines and a record
is no longer than the stride (`laidOut_strided`). Packed one behind the other they do not share a
line only if the records themselves are whole lines (`dvd_of_apart_packed`).
-/

namespace Lib

variable {L size n : Nat} {a b base stride : Int}

/-- Two records of `size` bytes have bytes in one line of `L` bytes. -/
def SharesLine (L size : Nat) (a b : Int) : Prop :=
  ∃ x y : Int, (a ≤ x ∧ x < a + size) ∧ (b ≤ y ∧ y < b + size) ∧ x / L = y / L

/-- The records at the addresses `ps` are in the `bytes` bytes from `base` on, and no two of them
    share a line. -/
structure LaidOut (L size : Nat) (base : Int) (bytes : Nat) (ps : List Int) : Prop where
  inside : ∀ p ∈ ps, base ≤ p ∧ p + size ≤ base + bytes
  apart : ∀ (i j : Nat) (p q : Int), ps[i]? = some p → ps[j]? = some q → i ≠ j →
    ¬ SharesLine L size p q

/-- `n` records, `stride` bytes from one to the next. -/
def strided (base stride : Int) (n : Nat) : List Int :=
  (List.range n).map fun (i : Nat) => base + i * stride

theorem getElem?_strided {i : Nat} {p : Int} :
    (strided base stride n)[i]? = some p ↔ i < n ∧ p = base + i * stride := by
  rw [strided, List.getElem?_map, Option.map_eq_some_iff]
  constructor
  · rintro ⟨k, hk, rfl⟩
    obtain ⟨hlt, rfl⟩ := List.getElem?_eq_some_iff.mp hk
    rw [List.getElem_range]
    exact ⟨by simpa using hlt, rfl⟩
  · rintro ⟨hi, rfl⟩
    exact ⟨i, List.getElem?_range hi, rfl⟩

theorem mem_strided {p : Int} :
    p ∈ strided base stride n ↔ ∃ i < n, p = base + (i : Nat) * stride := by
  simp [strided, eq_comm]

theorem SharesLine.symm (h : SharesLine L size a b) : SharesLine L size b a := by
  obtain ⟨x, y, hx, hy, hxy⟩ := h
  exact ⟨y, x, hy, hx, hxy.symm⟩

/-- A line begins between the two. -/
theorem not_sharesLine (hL : 0 < L) (hb : (L : Int) ∣ b) (hle : a + size ≤ b) :
    ¬ SharesLine L size a b := by
  rintro ⟨x, y, hx, hy, hxy⟩
  obtain ⟨k, rfl⟩ := hb
  have hpos : (0 : Int) < L := by omega
  have hlt : x / L < k := Int.ediv_lt_of_lt_mul hpos (by rw [mul_comm]; omega)
  have hge : k ≤ y / L := Int.le_ediv_of_mul_le hpos (by rw [mul_comm]; omega)
  omega

/-- Both begin in one line. -/
theorem sharesLine_of_lt (hsize : 0 < size) (ha : (L : Int) ∣ a) (hab : a ≤ b) (hlt : b < a + L) :
    SharesLine L size a b := by
  obtain ⟨k, rfl⟩ := ha
  have hpos : (0 : Int) < L := by omega
  have hline : b / L = k := by
    rw [Int.ediv_eq_iff_of_pos hpos, mul_comm]
    exact ⟨hab, hlt⟩
  refine ⟨_, _, ⟨le_refl _, by omega⟩, ⟨le_refl _, by omega⟩, ?_⟩
  rw [hline, Int.mul_ediv_cancel_left _ (by omega)]

/-- Where one ends and the next begins there is no new line. -/
theorem sharesLine_adjacent (hL : 0 < L) (hsize : 0 < size) (h : ¬ (L : Int) ∣ a + size) :
    SharesLine L size a (a + size) := by
  have hpos : (0 : Int) < L := by omega
  have hdiv := Int.ediv_mul_add_emod (a + size) L
  have hlo := Int.emod_nonneg (a + size) (Int.ne_of_gt hpos)
  have hhi := Int.emod_lt_of_pos (a + size) hpos
  have hne : (a + size) % L ≠ 0 := fun h₀ => h (Int.dvd_of_emod_eq_zero h₀)
  refine ⟨a + size - 1, a + size, ⟨by omega, by omega⟩, ⟨le_refl _, by omega⟩, ?_⟩
  rw [Int.ediv_eq_iff_of_pos hpos]
  constructor <;> omega

/-- One record has nobody to share a line with. -/
theorem laidOut_singleton {bytes : Nat} {p : Int} (hlo : base ≤ p)
    (hhi : p + size ≤ base + bytes) : LaidOut L size base bytes [p] where
  inside q hq := by
    obtain rfl := List.mem_singleton.mp hq
    exact ⟨hlo, hhi⟩
  apart i j _ _ hp hq hij := by
    have hi : i < [p].length := (List.getElem?_eq_some_iff.mp hp).1
    have hj : j < [p].length := (List.getElem?_eq_some_iff.mp hq).1
    simp only [List.length_singleton] at hi hj
    omega

/-! ## Records at a stride -/

theorem strided_step {i j : Nat} (hij : i < j) (hstride : 0 ≤ stride) :
    base + (i : Int) * stride + stride ≤ base + (j : Int) * stride := by
  have hle : ((i : Int) + 1) * stride ≤ (j : Int) * stride :=
    Int.mul_le_mul_of_nonneg_right (by omega) hstride
  rw [Int.add_mul, Int.one_mul] at hle
  omega

theorem laidOut_strided {bytes : Nat} (hL : 0 < L) (hbase : (L : Int) ∣ base)
    (hstride : (L : Int) ∣ stride) (hsize : (size : Int) ≤ stride)
    (hbytes : (n : Int) * stride ≤ bytes) : LaidOut L size base bytes (strided base stride n) := by
  have hnonneg : 0 ≤ stride := by omega
  have hapart : ∀ i j : Nat, i < j →
      ¬ SharesLine L size (base + i * stride) (base + j * stride) := by
    intro i j hij
    have hstep := @strided_step base stride i j hij hnonneg
    exact not_sharesLine hL (Int.dvd_add hbase (Int.dvd_mul_of_dvd_right hstride)) (by omega)
  constructor
  · intro p hp
    obtain ⟨i, hi, rfl⟩ := mem_strided.mp hp
    have hstep := @strided_step base stride i n hi hnonneg
    have hi₀ : 0 ≤ (i : Int) * stride := Int.mul_nonneg (by omega) hnonneg
    omega
  · intro i j p q hp hq hij
    obtain ⟨-, rfl⟩ := getElem?_strided.mp hp
    obtain ⟨-, rfl⟩ := getElem?_strided.mp hq
    rcases Nat.lt_or_gt_of_ne hij with hlt | hgt
    · exact hapart i j hlt
    · exact fun h => hapart j i hgt h.symm

/-- Of records packed one behind the other, from an aligned block on, the first two share a line
    already, if a record is not made of whole lines. -/
theorem dvd_of_apart_packed {bytes : Nat} (hL : 0 < L) (hsize : 0 < size)
    (hbase : (L : Int) ∣ base) (hn : 2 ≤ n) (h : LaidOut L size base bytes (strided base size n)) :
    L ∣ size := by
  by_contra hdvd
  have hnot : ¬ (L : Int) ∣ base + size := fun hd =>
    hdvd (Int.natCast_dvd_natCast.mp ((Int.dvd_add_right hbase).mp hd))
  have hfirst : (strided base size n)[0]? = some base :=
    getElem?_strided.mpr ⟨by omega, by simp⟩
  have hsecond : (strided base size n)[1]? = some (base + size) :=
    getElem?_strided.mpr ⟨by omega, by simp⟩
  exact h.apart 0 1 _ _ hfirst hsecond (by omega) (sharesLine_adjacent hL hsize hnot)

end Lib
