import Mathlib

/-!
# Stores into a block

A block of memory is the list of its cells. `storeAt l i f` rewrites cell `i` with `f`; a
store outside the block is undefined, so it answers `none`. A counting loop that stores into
one cell after another is a `foldlM` of `storeAt`, and `foldlM_storeAt` says what it comes to:
defined when its cells are in the block, and then the map that applies the round's function
to each of its cells and leaves the others alone. A loop that also carries a value from one round to
the next is brought to that form by `foldlM_storeAt_carry`, once the value of each round is
known.
-/

namespace Lib

variable {α : Type*}

/-- `l[i] = f(l[i])`. -/
def storeAt (l : List α) (i : Nat) (f : α → α) : Option (List α) :=
  if i < l.length then some (l.modify i f) else none

theorem storeAt_of_lt {l : List α} {i : Nat} (f : α → α) (h : i < l.length) :
    storeAt l i f = some (l.mapIdx fun j x => if j = i then f x else x) := by
  rw [storeAt, if_pos h, Option.some.injEq]
  refine List.ext_getElem? fun j => ?_
  rw [List.getElem?_modify, List.getElem?_mapIdx]
  by_cases hj : i = j
  · simp [hj]
  · simp [hj, Ne.symm hj]

/-- A store inside the block, as a store of a value. -/
theorem storeAt_eq_set {l : List α} {i : Nat} (f : α → α) (d : α) (h : i < l.length) :
    storeAt l i f = some (l.set i (f (l.getD i d))) := by
  rw [storeAt_of_lt f h, Option.some.injEq]
  refine List.ext_getElem? fun j => ?_
  rw [List.getElem?_mapIdx, List.getElem?_set]
  by_cases hj : i = j
  · subst hj
    simp [h]
  · simp [hj, Ne.symm hj]

theorem storeAt_isSome_iff {l : List α} {i : Nat} {f : α → α} :
    (storeAt l i f).isSome = true ↔ i < l.length := by
  unfold storeAt
  by_cases hi : i < l.length
  · simp [hi]
  · simp [hi]

theorem length_storeAt {l l' : List α} {i : Nat} {f : α → α} (h : storeAt l i f = some l') :
    l'.length = l.length := by
  unfold storeAt at h
  split at h
  · cases h
    exact List.length_modify ..
  · cases h

/-- A loop whose rounds store into one block is defined when each of its cells is in the block.
    Induction on the cells. -/
theorem foldlM_isSome_iff {σ : Type*} (len : σ → Nat) {step : σ → Nat → Option σ}
    (hstep : ∀ s i, (step s i).isSome = true ↔ i < len s)
    (hlen : ∀ {s s' : σ} {i : Nat}, step s i = some s' → len s' = len s) :
    ∀ {is : List Nat} {s : σ}, (is.foldlM step s).isSome = true ↔ ∀ i ∈ is, i < len s := by
  intro is
  induction is with
  | nil => simp
  | cons i is ih =>
    intro s
    rw [List.foldlM_cons, List.forall_mem_cons]
    cases hs : step s i with
    | none =>
      have hout : ¬ i < len s := fun h => by simpa [hs] using (hstep s i).mpr h
      simp [hout]
    | some s' =>
      have hin : i < len s := (hstep s i).mp (by rw [hs]; rfl)
      show (is.foldlM step s').isSome = true ↔ _
      rw [ih, hlen hs]
      exact ⟨fun h => ⟨hin, h⟩, fun h => h.2⟩

theorem length_foldlM {σ : Type*} {len : σ → Nat} {step : σ → Nat → Option σ}
    (hlen : ∀ {s s' : σ} {i : Nat}, step s i = some s' → len s' = len s) :
    ∀ {is : List Nat} {s s' : σ}, is.foldlM step s = some s' → len s' = len s
  | [], _, _, h => by
    cases h
    rfl
  | _ :: _, _, _, h => by
    rw [List.foldlM_cons] at h
    obtain ⟨s₁, hone, hrest⟩ := Option.bind_eq_some_iff.mp h
    exact (length_foldlM hlen hrest).trans (hlen hone)

theorem length_foldlM_storeAt {f : Nat → α → α} {is : List Nat} {l l' : List α}
    (h : is.foldlM (fun l i => storeAt l i (f i)) l = some l') : l'.length = l.length :=
  @length_foldlM _ List.length _ (fun h => length_storeAt h) _ _ _ h

/-- A loop that carries `c i` into round `i` is the loop that stores what `c i` says.
    Induction on the number of rounds. -/
theorem foldlM_storeAt_carry {γ : Type*} (f : γ → α → α) (next : γ → γ) (c : Nat → γ)
    (hc : ∀ i, next (c i) = c (i + 1)) : ∀ (n s : Nat) (l : List α),
    (List.range' s n).foldlM
        (fun (p : List α × γ) i => (storeAt p.1 i (f p.2)).map fun l' => (l', next p.2))
        (l, c s) =
      ((List.range' s n).foldlM (fun l i => storeAt l i (f (c i))) l).map
        fun l' => (l', c (s + n)) := by
  intro n
  induction n with
  | zero => intro s l; rfl
  | succ n ih =>
    intro s l
    rw [List.range'_succ, List.foldlM_cons, List.foldlM_cons]
    cases hl : storeAt l s (f (c s)) with
    | none => rfl
    | some l' =>
      refine Eq.trans ?_ (ih (s + 1) l' |>.trans ?_)
      · simp only [Option.map_some, Option.bind_eq_bind, Option.bind_some, hc]
      · rw [show s + 1 + n = s + (n + 1) by omega]
        rfl

/-- The loop over the cells `s, …, s + n - 1`. Induction on the number of rounds. -/
theorem foldlM_storeAt (f : Nat → α → α) : ∀ (n s : Nat) (l : List α), s + n ≤ l.length →
    (List.range' s n).foldlM (fun l i => storeAt l i (f i)) l =
      some (l.mapIdx fun j x => if s ≤ j ∧ j < s + n then f j x else x) := by
  intro n
  induction n with
  | zero =>
    intro s l _
    refine congrArg some (List.ext_getElem? fun j => ?_)
    rw [List.getElem?_mapIdx]
    simp only [show ¬ (s ≤ j ∧ j < s + 0) by omega, if_false, Option.map_id']
  | succ n ih =>
    intro s l hlen
    rw [List.range'_succ, List.foldlM_cons, storeAt_of_lt _ (by omega)]
    refine (ih (s + 1) _ (by rw [List.length_mapIdx]; omega)).trans ?_
    rw [List.mapIdx_mapIdx]
    congr 2
    funext j x
    simp only [Function.comp_apply]
    by_cases hjs : j = s
    · subst hjs
      rw [if_neg (by omega), if_pos rfl, if_pos (by omega)]
    · rw [if_neg hjs]
      by_cases hj : s ≤ j ∧ j < s + (n + 1)
      · rw [if_pos (by omega), if_pos hj]
      · rw [if_neg (by omega), if_neg hj]

end Lib
