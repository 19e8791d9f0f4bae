import CompTech.Lib.First

/-!
# Finite vectors of bits

A vector of bits is a size and the set of positions below it that hold a one; the bound is a
field, so that no vector has a one outside. `bit` reads any position and finds zeros outside.

Every write is one operation, `update f A`: the bit at each position of the vector is combined by
`f` with membership in `A`. With `or`, `and not` and `xor` for `f` that is setting, clearing and
flipping the positions of `A`. `grow` makes room for more zeros, `next` looks for the first
position with a value, and `fold` visits the bits in order.
-/

namespace Lib

/-- A size, and the positions below it that hold a one. -/
@[ext]
structure BitVector where
  size : Nat
  ones : Finset Nat
  inside : ∀ i ∈ ones, i < size

namespace BitVector

variable (v : BitVector)

/-- The bit at a position. -/
def bit (i : Nat) : Bool := decide (i ∈ v.ones)

/-- All bits are zero. -/
def zeros (n : Nat) : BitVector := ⟨n, ∅, fun _ h => absurd h (Finset.notMem_empty _)⟩

/-- Every bit is combined with whether its position is in `A`. -/
def update (f : Bool → Bool → Bool) (A : Nat → Prop) [DecidablePred A] : BitVector where
  size := v.size
  ones := (Finset.range v.size).filter fun i => f (v.bit i) (decide (A i)) = true
  inside _ hi := Finset.mem_range.mp (Finset.mem_filter.mp hi).1

/-- `n` positions, with ones in `A`. -/
def ofPred (n : Nat) (A : Nat → Prop) [DecidablePred A] : BitVector := (zeros n).update or A

/-- At least `n` positions. -/
def grow (n : Nat) : BitVector where
  size := max v.size n
  ones := v.ones
  inside i hi := lt_max_of_lt_left (v.inside i hi)

/-- The first position from `start` on that holds `b`. -/
def next (b : Bool) (start : Nat) : Option Nat :=
  (List.range' start (v.size - start)).find? fun i => v.bit i == b

/-- The bits from the first to the last. -/
def fold {β : Type*} (f : β → Bool → β) (x : β) : β :=
  (List.range v.size).foldl (fun x i => f x (v.bit i)) x

variable {v} {f : Bool → Bool → Bool} {A : Nat → Prop} [DecidablePred A] {i n : Nat}

theorem bit_of_le (h : v.size ≤ i) : v.bit i = false :=
  decide_eq_false fun hi => Nat.not_lt_of_le h (v.inside i hi)

theorem lt_of_bit (h : v.bit i = true) : i < v.size := v.inside i (of_decide_eq_true h)

@[simp] theorem size_zeros : (zeros n).size = n := rfl

@[simp] theorem bit_zeros : (zeros n).bit i = false := decide_eq_false (Finset.notMem_empty i)

@[simp] theorem size_update : (v.update f A).size = v.size := rfl

theorem bit_update (h : i < v.size) : (v.update f A).bit i = f (v.bit i) (decide (A i)) := by
  have hi : i ∈ Finset.range v.size := Finset.mem_range.mpr h
  rw [bit, update]
  simp only [Finset.mem_filter, hi, true_and, Bool.decide_eq_true]

@[simp] theorem size_ofPred : (ofPred n A).size = n := rfl

theorem bit_ofPred (h : i < n) : (ofPred n A).bit i = decide (A i) := by
  rw [ofPred, bit_update h, bit_zeros, Bool.false_or]

@[simp] theorem size_grow : (v.grow n).size = max v.size n := rfl

@[simp] theorem bit_grow : (v.grow n).bit i = v.bit i := rfl

/-- `next` answers what its name says. -/
theorem isFirst_next (b : Bool) (start : Nat) :
    IsFirst (fun i => v.bit i = b) start v.size (v.next b start) := by
  unfold next
  cases hfind : (List.range' start (v.size - start)).find? fun i => v.bit i == b with
  | none =>
    intro j hlo hhi hj
    have hnot := List.find?_eq_none.mp hfind j (List.mem_range'_1.mpr ⟨hlo, by omega⟩)
    exact hnot (beq_iff_eq.mpr hj)
  | some k =>
    obtain ⟨hk, hmem, hbefore⟩ := List.find?_range'_eq_some.mp hfind
    obtain ⟨hlo, hhi⟩ := List.mem_range'_1.mp hmem
    refine ⟨hlo, by omega, beq_iff_eq.mp hk, fun j hj hlt hb => ?_⟩
    have hnot := hbefore j hj hlt
    rw [beq_iff_eq.mpr hb] at hnot
    exact Bool.noConfusion hnot

end BitVector

end Lib
