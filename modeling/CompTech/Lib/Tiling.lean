import Mathlib

/-!
# Tilings of an interval by equal slices

`Tiles w a l b`: the slices of `l`, in order, lead from `a` to `b` without a gap, each of
width `w`. The predicate follows the list, so a tiling is put together from shorter ones:
`Tiles.append` for two, `Tiles.flatten` for one list of slices after another.

`Tiles.explicit` reads a tiling off as the facts a reader would check on it — the width of
every slice, where the first begins, where the last ends, and that each begins where the one
before ended.
-/

namespace Lib

variable {α : Type*} [Field α]

/-- A slice is the pair of its two ends. -/
def Tiles (w : α) : α → List (α × α) → α → Prop
  | a, [], b => a = b
  | a, s :: l, b => s.1 = a ∧ s.2 = a + w ∧ Tiles w (a + w) l b

variable {w a b c : α}

theorem Tiles.append : ∀ {l l' : List (α × α)} {a : α}, Tiles w a l b → Tiles w b l' c →
    Tiles w a (l ++ l') c
  | [], _, _, h, h' => by cases h; exact h'
  | _ :: _, _, _, ⟨h₁, h₂, h⟩, h' => ⟨h₁, h₂, Tiles.append h h'⟩

/-- Lists of slices that each lead from one cut to the next lead together from the first cut
    to the last. -/
theorem Tiles.flatten (cut : Nat → α) : ∀ (parts : List (List (α × α))) (k : Nat),
    (∀ i (hi : i < parts.length), Tiles w (cut (k + i)) parts[i] (cut (k + i + 1))) →
    Tiles w (cut k) parts.flatten (cut (k + parts.length)) := by
  intro parts
  induction parts with
  | nil => intro k _; rfl
  | cons p parts ih =>
    intro k h
    have hhead : Tiles w (cut k) p (cut (k + 1)) := h 0 (by simp)
    have htail := ih (k + 1) fun i hi => by
      have hi' := h (i + 1) (by simpa using hi)
      rwa [show k + (i + 1) = k + 1 + i by omega, List.getElem_cons_succ] at hi'
    rw [show k + 1 + parts.length = k + (p :: parts).length by simp; omega] at htail
    exact hhead.append htail

/-- The `n` slices that start at `a`. -/
def equalSlices (w a : α) (n : Nat) : List (α × α) :=
  (List.range n).map fun (i : Nat) => (a + (i : α) * w, a + ((i : α) + 1) * w)

theorem tiles_equalSlices (w a : α) (n : Nat) :
    Tiles w a (equalSlices w a n) (a + (n : α) * w) := by
  induction n with
  | zero => simp [equalSlices, Tiles]
  | succ n ih =>
    rw [equalSlices, List.range_succ, List.map_append]
    refine ih.append ⟨rfl, ?_, ?_⟩
    · show a + ((n : α) + 1) * w = a + (n : α) * w + w
      ring
    · show a + (n : α) * w + w = a + ((n + 1 : Nat) : α) * w
      push_cast
      ring

theorem equalSlices_succ (w a : α) (n : Nat) :
    equalSlices w a (n + 1) = (a, a + w) :: equalSlices w (a + w) n := by
  rw [equalSlices, List.range_succ_eq_map, List.map_cons, List.map_map, equalSlices]
  refine congrArg₂ List.cons ?_ (List.map_congr_left fun i _ => ?_)
  · simp
  · simp only [Function.comp_apply, Nat.succ_eq_add_one, Nat.cast_add, Nat.cast_one,
      Prod.mk.injEq]
    constructor <;> ring

/-- There is one tiling with that many slices. -/
theorem Tiles.eq_equalSlices : ∀ {l : List (α × α)} {a : α}, Tiles w a l b →
    l = equalSlices w a l.length
  | [], _, _ => rfl
  | s :: l, a, ⟨h₁, h₂, h⟩ => by
    rw [List.length_cons, equalSlices_succ, ← h.eq_equalSlices]
    exact congrArg (· :: l) (Prod.ext h₁ h₂)

/-! ## What a tiling says -/

theorem Tiles.width : ∀ {l : List (α × α)} {a : α}, Tiles w a l b → ∀ s ∈ l, s.2 - s.1 = w
  | _ :: _, a, ⟨h₁, h₂, h⟩, s, hs => by
    rcases List.mem_cons.mp hs with rfl | hs
    · rw [h₁, h₂]; ring
    · exact h.width s hs

theorem Tiles.head {l : List (α × α)} (h : Tiles w a l b) : ∀ s ∈ l.head?, s.1 = a := by
  cases l with
  | nil => intro s hs; exact absurd hs (by simp)
  | cons t l =>
    intro s hs
    obtain rfl : t = s := by simpa using hs
    exact h.1

theorem Tiles.last : ∀ {l : List (α × α)} {a : α}, Tiles w a l b → ∀ s ∈ l.getLast?, s.2 = b
  | [], _, _, s, hs => absurd hs (by simp)
  | [t], a, ⟨_, h₂, h⟩, s, hs => by
    obtain rfl : t = s := by simpa using hs
    exact h₂.trans h
  | _ :: t :: l, a, ⟨_, _, h⟩, s, hs => h.last s (by rwa [List.getLast?_cons_cons] at hs)

/-- Every slice begins where the one before it ends. -/
theorem Tiles.chain : ∀ {l : List (α × α)} {a : α}, Tiles w a l b →
    l.IsChain fun s t => s.2 = t.1
  | [], _, _ => .nil
  | [_], _, _ => .singleton _
  | _ :: _ :: _, _, ⟨_, h₂, h⟩ => .cons_cons (h₂.trans h.1.symm) h.chain

/-- The facts of a tiling, one by one. -/
structure EqualTiling (w a : α) (n : Nat) (l : List (α × α)) (b : α) : Prop where
  count : l.length = n
  width : ∀ s ∈ l, s.2 - s.1 = w
  head : ∀ s ∈ l.head?, s.1 = a
  last : ∀ s ∈ l.getLast?, s.2 = b
  chain : l.IsChain fun s t => s.2 = t.1

theorem Tiles.explicit {l : List (α × α)} (h : Tiles w a l b) :
    EqualTiling w a l.length l b :=
  ⟨rfl, h.width, h.head, h.last, h.chain⟩

/-! ## Intervals of any width -/

section Ordered

variable {β : Type*} [LinearOrder β] {z : β}

/-- The half-open intervals of `l`, none of them empty, lead in order from `a` to `b`. -/
def Partitions : β → List (β × β) → β → Prop
  | a, [], b => a = b
  | a, s :: l, b => s.1 = a ∧ s.1 < s.2 ∧ Partitions s.2 l b

theorem Partitions.le : ∀ {l : List (β × β)} {y : β}, Partitions y l z → y ≤ z
  | [], _, h => Eq.le h
  | _ :: _, _, ⟨h₁, h₂, h⟩ => h₁ ▸ (h₂.le.trans h.le)

theorem Partitions.of_append : ∀ {l l' : List (β × β)} {x y : β}, Partitions y l z →
    Partitions y (l ++ l') x → Partitions z l' x
  | [], _, _, _, h, h' => by cases h; exact h'
  | _ :: _, _, _, _, ⟨_, _, h⟩, ⟨_, _, h'⟩ => h.of_append h'

/-- **Once.** A point of the whole lies in one of the parts and in no two. -/
theorem Partitions.once (x : β) : ∀ {l : List (β × β)} {y : β}, Partitions y l z →
    l.countP (fun s => s.1 ≤ x ∧ x < s.2) = if y ≤ x ∧ x < z then 1 else 0
  | [], y, h => by
    have hnot : ¬(y ≤ x ∧ x < z) := fun hx => absurd (h ▸ hx.2) (not_lt.mpr hx.1)
    rw [List.countP_nil, if_neg hnot]
  | s :: l, _, ⟨rfl, h₂, h⟩ => by
    have hle := h.le
    rw [List.countP_cons, h.once x]
    rcases lt_or_ge x s.2 with hx | hx
    · simp [hx, hx.trans_le hle, not_le.mpr hx]
    · simp [hx, h₂.le.trans hx, not_lt.mpr hx]

theorem Tiles.partitions [LinearOrder α] [IsStrictOrderedRing α] (hw : 0 < w) :
    ∀ {l : List (α × α)} {a : α}, Tiles w a l b → Partitions a l b
  | [], _, h => h
  | s :: _, a, ⟨h₁, h₂, h⟩ => by
    refine ⟨h₁, ?_, h₂ ▸ h.partitions hw⟩
    rw [h₁, h₂]
    exact lt_add_of_pos_right a hw

end Ordered

end Lib
