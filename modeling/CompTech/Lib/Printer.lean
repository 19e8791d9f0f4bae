import Mathlib

/-!
# Texts that say what was printed

`Exact p` says that what `p` prints can be told apart, and apart from whatever stands behind it: two
texts that begin with `p a` and `p b` are equal only if `a` and `b` are, and then the rests are
equal as well. So exact printers can be put one behind the other. A printer is exact if all its
texts have one length (`Exact.of_length`), or if it ends with a character that is nowhere in front
(`Exact.of_stop`).
-/

namespace Lib

variable {α β : Type*}

/-- What is printed can be read back from the front of any text. -/
def Exact (p : α → List Char) : Prop :=
  ∀ a b s t, p a ++ s = p b ++ t → a = b ∧ s = t

variable {p : α → List Char}

theorem Exact.of_length (hlen : ∀ a b, (p a).length = (p b).length)
    (hinj : Function.Injective p) : Exact p := by
  intro a b s t h
  obtain ⟨hp, hs⟩ := List.append_inj h (hlen a b)
  exact ⟨hinj hp, hs⟩

/-- Up to the first `c`. Induction on the text in front of it. -/
theorem append_stop {c : Char} : ∀ {l l' s t : List Char}, c ∉ l → c ∉ l' →
    l ++ c :: s = l' ++ c :: t → l = l' ∧ s = t
  | [], [], _, _, _, _, h => ⟨rfl, (List.cons.inj h).2⟩
  | [], d :: l', _, _, _, hl', h => by
    obtain rfl := (List.cons.inj h).1
    exact absurd List.mem_cons_self hl'
  | d :: l, [], _, _, hl, _, h => by
    obtain rfl := (List.cons.inj h).1
    exact absurd List.mem_cons_self hl
  | d :: l, d' :: l', _, _, hl, hl', h => by
    obtain ⟨hhead, htail⟩ := List.cons.inj h
    obtain ⟨rfl, hs⟩ := append_stop (fun hc => hl (List.mem_cons_of_mem _ hc))
      (fun hc => hl' (List.mem_cons_of_mem _ hc)) htail
    exact ⟨congrArg (· :: l) hhead, hs⟩

theorem Exact.of_stop {c : Char} (hfree : ∀ a, c ∉ p a) (hinj : Function.Injective p) :
    Exact fun a => p a ++ [c] := by
  intro a b s t h
  simp only [List.append_assoc, List.singleton_append] at h
  obtain ⟨hp, hs⟩ := append_stop (hfree a) (hfree b) h
  exact ⟨hinj hp, hs⟩

theorem Exact.comp {f : β → α} (hp : Exact p) (hf : Function.Injective f) :
    Exact fun b => p (f b) := by
  intro a b s t h
  obtain ⟨hab, hs⟩ := hp _ _ _ _ h
  exact ⟨hf hab, hs⟩

/-- A fixed text in front. -/
theorem Exact.lit (l : List Char) (hp : Exact p) : Exact fun a => l ++ p a := by
  intro a b s t h
  simp only [List.append_assoc] at h
  exact hp a b s t (List.append_cancel_left h)

/-- A fixed text behind. -/
theorem Exact.then_lit (hp : Exact p) (l : List Char) : Exact fun a => p a ++ l := by
  intro a b s t h
  simp only [List.append_assoc] at h
  obtain ⟨hab, hs⟩ := hp a b _ _ h
  exact ⟨hab, List.append_cancel_left hs⟩

/-- A loop that prints one element in each round. Induction on the rounds. -/
theorem Exact.range {r : Nat → α → List Char} (hr : ∀ i, Exact (r i)) {f g : Nat → α} :
    ∀ {n : Nat} {s t : List Char}, (List.range n).flatMap (fun i => r i (f i)) ++ s =
      (List.range n).flatMap (fun i => r i (g i)) ++ t → (∀ i < n, f i = g i) ∧ s = t := by
  intro n
  induction n with
  | zero => exact fun h => ⟨fun i hi => absurd hi (Nat.not_lt_zero i), h⟩
  | succ n ih =>
    intro s t h
    simp only [List.range_succ, List.flatMap_append, List.flatMap_singleton,
      List.append_assoc] at h
    obtain ⟨hbefore, h⟩ := ih h
    obtain ⟨hlast, hs⟩ := hr n _ _ _ _ h
    refine ⟨fun i hi => ?_, hs⟩
    rcases Nat.lt_succ_iff_lt_or_eq.mp hi with hlt | rfl
    · exact hbefore i hlt
    · exact hlast

theorem toDigits_injective : Function.Injective (Nat.toDigits 10) := by
  intro m n h
  have hread := congrArg (Nat.ofDigitChars 10 · 0) h
  simpa only [Nat.ofDigitChars_ten_toDigits] using hread

/-- A number in front of a character that is no digit. -/
theorem exact_number {c : Char} (hc : c.isDigit = false) :
    Exact fun n : Nat => Nat.toDigits 10 n ++ [c] := by
  refine .of_stop (fun n hmem => ?_) toDigits_injective
  rw [Nat.isDigit_of_mem_toDigits (by decide) (by decide) hmem] at hc
  cases hc

end Lib
