import Mathlib

/-!
# Tables of processes

A system of processes is a list of their states: number `k` is entry `k`, a step of one process is
`l.set k`, and what holds of the others is what the rest of the list keeps. The lemmas of the first
section say what a `set` does to an entry, to membership, to a projection of the table and to a
count or a sum over it; each takes the entry that was there, `l[k]? = some a`, which is what a step
has looked up, and none asks for a bound on `k`.

The second section is about tables that a function fills: a loop that creates one process after
another leaves `(List.range n).map f`, and this is how its entries are read and written.
-/

namespace Lib

variable {α β : Type*} {l : List α} {a b c : α} {i k n : Nat}

/-! ## One entry is set -/

/-- Nothing happens. -/
theorem set_self (h : l[i]? = some a) : l.set i a = l := by
  obtain ⟨hi, rfl⟩ := List.getElem?_eq_some_iff.mp h
  exact List.set_getElem_self hi

/-- All entries at once, for an entry that is there. -/
theorem getElem?_set_of_some (ha : l[i]? = some a) :
    (l.set i b)[k]? = if i = k then some b else l[k]? := by
  have hi := (List.getElem?_eq_some_iff.mp ha).1
  rw [List.getElem?_set]
  simp [hi]

/-- Whoever is found afterwards is the one that was set, or was there. -/
theorem getElem?_set_eq_some (h : (l.set i a)[k]? = some b) :
    (k = i ∧ b = a) ∨ (k ≠ i ∧ l[k]? = some b) := by
  by_cases hk : k = i
  · subst hk
    obtain ⟨hlt, hb⟩ := List.getElem?_eq_some_iff.mp h
    rw [List.getElem_set_self] at hb
    exact .inl ⟨rfl, hb.symm⟩
  · rw [List.getElem?_set_ne (Ne.symm hk)] at h
    exact .inr ⟨hk, h⟩

/-- An entry that is not the one that is overwritten stays. -/
theorem mem_set_of_ne (hi : l[i]? = some b) (ha : a ∈ l) (hne : a ≠ b) : a ∈ l.set i c := by
  obtain ⟨k, hk⟩ := List.mem_iff_getElem?.mp ha
  refine List.mem_of_getElem? (i := k) ?_
  rw [List.getElem?_set_ne, hk]
  rintro rfl
  exact hne (Option.some.inj (hk.symm.trans hi))

/-- An entry is exchanged for one that keeps what is asked of it. -/
theorem mem_set_of_mem {R : α → α → Prop} (hrefl : ∀ a, R a a) (ha : l[i]? = some a) (hab : R a b)
    (hc : c ∈ l) : ∃ d ∈ l.set i b, R c d := by
  obtain ⟨k, hk⟩ := List.mem_iff_getElem?.mp hc
  by_cases hik : i = k
  · subst hik
    obtain rfl := Option.some.inj (ha.symm.trans hk)
    exact ⟨b, List.mem_set (List.getElem?_eq_some_iff.mp ha).1 b, hab⟩
  · exact ⟨c, List.mem_of_getElem? ((List.getElem?_set_ne hik).trans hk), hrefl c⟩

/-- What the new entry shares with the old one the whole table keeps. -/
theorem map_set_of_eq (f : α → β) (ha : l[i]? = some a) (hf : f b = f a) :
    (l.set i b).map f = l.map f := by
  rw [List.map_set, hf]
  exact set_self (by rw [List.getElem?_map, ha, Option.map_some])

/-- Moving one element changes the sum by what moves. -/
theorem sum_map_set (f : α → Nat) (ha : l[i]? = some a) :
    ((l.set i b).map f).sum + f a = (l.map f).sum + f b := by
  induction l generalizing i with
  | nil => cases ha
  | cons x l ih =>
    cases i with
    | zero =>
      obtain rfl := Option.some.inj ha
      simp only [List.set_cons_zero, List.map_cons, List.sum_cons]
      omega
    | succ i =>
      have hrest := ih (i := i) (by simpa using ha)
      simp only [List.set_cons_succ, List.map_cons, List.sum_cons]
      omega

/-- `List.countP_set` without its subtraction. -/
theorem countP_set_add {p : α → Bool} (ha : l[i]? = some a) :
    (l.set i b).countP p + (p a).toNat = l.countP p + (p b).toNat := by
  obtain ⟨hi, rfl⟩ := List.getElem?_eq_some_iff.mp ha
  have hle : (if p l[i] then 1 else 0) ≤ l.countP p := List.boole_getElem_le_countP hi
  have hbit : ∀ q : Bool, q.toNat = if q then 1 else 0 := by decide
  rw [List.countP_set hi, hbit, hbit]
  omega

/-! ## A table that a function fills -/

theorem getElem?_map_range {f : Nat → α} (hk : k < n) :
    ((List.range n).map f)[k]? = some (f k) := by
  rw [List.getElem?_map, List.getElem?_range hk]
  rfl

theorem eq_of_getElem?_map_range {f : Nat → α} (h : ((List.range n).map f)[k]? = some a) :
    k < n ∧ a = f k := by
  rw [List.getElem?_map, Option.map_eq_some_iff] at h
  obtain ⟨j, hj, rfl⟩ := h
  obtain ⟨hk, hjk⟩ := List.getElem?_eq_some_iff.mp hj
  rw [List.getElem_range] at hjk
  exact ⟨by simpa using hk, by rw [hjk]⟩

theorem map_range_set (f : Nat → α) (n k : Nat) (a : α) :
    ((List.range n).map f).set k a = (List.range n).map fun j => if j = k then a else f j := by
  refine List.ext_getElem (by simp) fun j hj _ => ?_
  rw [List.getElem_set, List.getElem_map, List.getElem_range, List.getElem_map,
    List.getElem_range]
  split
  · rename_i hkj
    exact (if_pos hkj.symm).symm
  · rename_i hkj
    exact (if_neg (Ne.symm hkj)).symm

/-! ## Where an entry is -/

/-- In a table of one there is one place. -/
theorem eq_of_getElem?_single (hl : l = [a]) (h : l[i]? = some b) : i = 0 ∧ b = a := by
  rw [hl] at h
  cases i with
  | zero => exact ⟨rfl, (Option.some_inj.mp h).symm⟩
  | succ i => cases h

theorem getElem?_of_take (h : (l.take n)[i]? = some a) : i < n ∧ l[i]? = some a := by
  rw [List.getElem?_take] at h
  split at h
  · exact ⟨by assumption, h⟩
  · exact absurd h (by simp)

/-- Entries with the same key are one entry, where the keys are distinct. -/
theorem index_eq_of_key {f : α → β} (hl : (l.map f).Nodup) (ha : l[i]? = some a)
    (hb : l[k]? = some b) (h : f a = f b) : i = k := by
  have ha' : (l.map f)[i]? = some (f a) := by rw [List.getElem?_map, ha]; rfl
  have hb' : (l.map f)[k]? = some (f a) := by rw [List.getElem?_map, hb, h]; rfl
  have hi : i < (l.map f).length := (List.getElem?_eq_some_iff.mp ha').1
  exact (List.getElem?_inj hi hl).mp (ha'.trans hb'.symm)

/-- A map that is defined at every entry. -/
theorem mapM_eq_some {g : α → Option β} {h : α → β} (hl : ∀ a ∈ l, g a = some (h a)) :
    l.mapM g = some (l.map h) := by
  induction l with
  | nil => rfl
  | cons a l ih =>
    rw [List.mapM_cons, hl a List.mem_cons_self, ih fun b hb => hl b (List.mem_cons_of_mem a hb)]
    rfl

end Lib
