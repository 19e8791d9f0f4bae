import Mathlib.Data.List.Infix

/-!
# Channels that keep the order

A channel delivers what was sent, in the order it was sent, and may keep some of it for good.
`Channel` records both ends: what was put in and what was taken out. That the second is a prefix
of the first is a field, so every operation comes with its proof, and an invariant about one end
is not disturbed by what happens at the other.
-/

namespace Lib

/-- A channel that loses and reorders nothing. -/
structure Channel (α : Type*) where
  sent : List α
  received : List α
  ordered : received <+: sent

namespace Channel

variable {α : Type*} {c d : Channel α} {a : α}

/-- Nothing has been sent. -/
def empty : Channel α := ⟨[], [], List.prefix_rfl⟩

/-- One more is sent. -/
def push (c : Channel α) (a : α) : Channel α :=
  ⟨c.sent ++ [a], c.received, c.ordered.trans (List.prefix_append _ _)⟩

theorem prefix_snoc {r s : List α} (h : r <+: s) (ha : s[r.length]? = some a) :
    r ++ [a] <+: s := by
  obtain ⟨rest, rfl⟩ := h
  rw [List.getElem?_append_right (Nat.le_refl _), Nat.sub_self] at ha
  cases rest with
  | nil => cases ha
  | cons b rest =>
    obtain rfl : b = a := Option.some.inj ha
    exact ⟨rest, by rw [List.append_assoc, List.singleton_append]⟩

/-- Take the next one out; `none` when there is none. -/
def pop (c : Channel α) : Option (α × Channel α) :=
  match h : c.sent[c.received.length]? with
  | none => none
  | some a => some (a, ⟨c.sent, c.received ++ [a], prefix_snoc c.ordered h⟩)

theorem push_sent (c : Channel α) (a : α) : (c.push a).sent = c.sent ++ [a] := rfl

/-- Taking out does nothing to what was put in. -/
theorem pop_cases (h : c.pop = some (a, d)) :
    d.sent = c.sent ∧ d.received = c.received ++ [a] := by
  unfold pop at h
  split at h
  · cases h
  · cases h
    exact ⟨rfl, rfl⟩

theorem exists_pop (h : c.received.length < c.sent.length) : ∃ a d, c.pop = some (a, d) := by
  unfold pop
  split
  · rename_i hnone
    exact absurd h (Nat.not_lt.mpr (List.getElem?_eq_none_iff.mp hnone))
  · exact ⟨_, _, rfl⟩

end Channel

end Lib
