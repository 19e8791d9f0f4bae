import Mathlib

/-!
# The first place where something holds

`IsFirst P lo hi r` says that `r` is the first place of `[lo, hi)` where `P` holds, and `none` if
there is no such place. That is what a search that goes upwards answers.

A search may skip a piece in which nothing holds (`IsFirst.skip`), and there is only one answer
(`IsFirst.unique`). `isFirst_iff_hidden` compares a search with one that starts too early and
overlooks some places: it gives the right answer exactly if it meets nothing it can see in front
of the start, and a place it overlooks is never the first one.
-/

namespace Lib

variable {α : Type*} [LinearOrder α] {P Q V : α → Prop} {lo mid hi : α} {r r' : Option α}

/-- `r` is the first place from `lo` on and below `hi` where `P` holds. -/
def IsFirst (P : α → Prop) (lo hi : α) : Option α → Prop
  | some i => lo ≤ i ∧ i < hi ∧ P i ∧ ∀ j, lo ≤ j → j < i → ¬P j
  | none => ∀ j, lo ≤ j → j < hi → ¬P j

namespace IsFirst

theorem congr (hPQ : ∀ i, lo ≤ i → i < hi → (P i ↔ Q i)) (h : IsFirst P lo hi r) :
    IsFirst Q lo hi r := by
  cases r with
  | none => exact fun j hlo hhi hq => h j hlo hhi ((hPQ j hlo hhi).mpr hq)
  | some i =>
    obtain ⟨hlo, hhi, hp, hbefore⟩ := h
    exact ⟨hlo, hhi, (hPQ i hlo hhi).mp hp,
      fun j hj hlt hq => hbefore j hj hlt ((hPQ j hj (hlt.trans hhi)).mpr hq)⟩

/-- Nothing holds up to `mid`, so the search may start there. -/
theorem skip (hle : lo ≤ mid) (hnone : ∀ i, lo ≤ i → i < mid → i < hi → ¬P i)
    (h : IsFirst P mid hi r) : IsFirst P lo hi r := by
  cases r with
  | none =>
    intro j hlo hhi
    rcases lt_or_ge j mid with hlt | hge
    · exact hnone j hlo hlt hhi
    · exact h j hge hhi
  | some i =>
    obtain ⟨hmid, hhi, hp, hbefore⟩ := h
    refine ⟨hle.trans hmid, hhi, hp, fun j hj hlt => ?_⟩
    rcases lt_or_ge j mid with hlow | hge
    · exact hnone j hj hlow (hlt.trans hhi)
    · exact hbefore j hge hlt

theorem unique (h : IsFirst P lo hi r) (h' : IsFirst P lo hi r') : r = r' := by
  cases r with
  | none =>
    cases r' with
    | none => rfl
    | some i => exact absurd h'.2.2.1 (h i h'.1 h'.2.1)
  | some i =>
    cases r' with
    | none => exact absurd h.2.2.1 (h' i h.1 h.2.1)
    | some i' =>
      rcases lt_trichotomy i i' with hlt | heq | hgt
      · exact absurd h.2.2.1 (h'.2.2.2 i h.1 hlt)
      · rw [heq]
      · exact absurd h'.2.2.1 (h.2.2.2 i' h'.1 hgt)

end IsFirst

/-- **A search that overlooks places.** `r` is what a search from `lo` on for `P` answers that
    sees only the places with `V`. It is the first place from `mid` on with `P` exactly if the
    search sees nothing in front of `mid`, and every place with `P` that it does not see has
    one that it sees in front of it. -/
theorem isFirst_iff_hidden (hle : lo ≤ mid) (h : IsFirst (fun i => P i ∧ V i) lo hi r) :
    IsFirst P mid hi r ↔ (∀ i, lo ≤ i → i < mid → i < hi → P i → ¬V i) ∧
      ∀ i, mid ≤ i → i < hi → P i → ¬V i → ∃ j, mid ≤ j ∧ j < i ∧ P j ∧ V j := by
  constructor
  · intro hfirst
    cases r with
    | none => exact ⟨fun i hlo _ hhi hp hv => h i hlo hhi ⟨hp, hv⟩,
        fun i hmid hhi hp _ => absurd hp (hfirst i hmid hhi)⟩
    | some k =>
      obtain ⟨-, hk, hseen, hbefore⟩ := h
      obtain ⟨hmid, -, -, hleast⟩ := hfirst
      refine ⟨fun i hlo hlt _ hp hv => hbefore i hlo (hlt.trans_le hmid) ⟨hp, hv⟩,
        fun i hi _ hp hv => ⟨k, hmid, ?_, hseen⟩⟩
      rcases lt_trichotomy k i with hlt | rfl | hgt
      · exact hlt
      · exact absurd hseen.2 hv
      · exact absurd hp (hleast i hi hgt)
  · rintro ⟨hfront, hhidden⟩
    cases r with
    | none =>
      intro i hmid hhi hp
      by_cases hv : V i
      · exact h i (hle.trans hmid) hhi ⟨hp, hv⟩
      · obtain ⟨j, hj, hlt, hseen⟩ := hhidden i hmid hhi hp hv
        exact h j (hle.trans hj) (hlt.trans hhi) hseen
    | some k =>
      obtain ⟨hlo, hk, hseen, hbefore⟩ := h
      have hmid : mid ≤ k := by
        by_contra hlt
        exact hfront k hlo (not_le.mp hlt) hk hseen.1 hseen.2
      refine ⟨hmid, hk, hseen.1, fun i hi hlt hp => ?_⟩
      by_cases hv : V i
      · exact hbefore i (hle.trans hi) hlt ⟨hp, hv⟩
      · obtain ⟨j, hj, hjlt, hjseen⟩ := hhidden i hi (hlt.trans hk) hp hv
        exact hbefore j (hle.trans hj) (hjlt.trans hlt) hjseen

end Lib
