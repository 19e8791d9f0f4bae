import Mathlib

/-!
# While loops

`whileLoop test body fuel s` is `while (test (s)) s = body (s)`, stopped after `fuel` tests: `none`
says that the fuel ran out, so an answer is what the loop comes to. When the state before each
round is known, `whileLoop_trace` is the whole story: the loop ends at the first state of the
trace that fails the test.
-/

namespace Lib

variable {σ : Type*} {test : σ → Prop} [DecidablePred test] {body : σ → σ}

/-- A `while` loop that ends after `fuel` tests at most. -/
def whileLoop (test : σ → Prop) [DecidablePred test] (body : σ → σ) : Nat → σ → Option σ
  | 0, _ => none
  | fuel + 1, s => if test s then whileLoop test body fuel (body s) else some s

/-- `c k` is the state before round `k`, and the test fails first at `c n`. Induction on the
    number of rounds. -/
theorem whileLoop_trace : ∀ {n fuel : Nat} {c : Nat → σ}, (∀ k < n, test (c k)) →
    (∀ k < n, body (c k) = c (k + 1)) → ¬test (c n) → n < fuel →
      whileLoop test body fuel (c 0) = some (c n) := by
  intro n
  induction n with
  | zero =>
    intro fuel c _ _ hstop hfuel
    obtain ⟨fuel, rfl⟩ := Nat.exists_eq_succ_of_ne_zero (Nat.ne_zero_of_lt hfuel)
    exact if_neg hstop
  | succ n ih =>
    intro fuel c hgo hbody hstop hfuel
    obtain ⟨fuel, rfl⟩ := Nat.exists_eq_succ_of_ne_zero (Nat.ne_zero_of_lt hfuel)
    have hpos : 0 < n + 1 := Nat.succ_pos n
    rw [whileLoop, if_pos (hgo 0 hpos), hbody 0 hpos]
    refine ih (c := fun k => c (k + 1)) (fun k hk => hgo (k + 1) (by omega))
      (fun k hk => hbody (k + 1) (by omega)) hstop (by omega)

/-- How often a loop that walks from `lower` in steps comes to a test below `upper`. -/
theorem isLeast_ceil {step lower upper : ℚ} (hstep : 0 < step) :
    IsLeast {n : Nat | upper ≤ lower + n * step} ⌈(upper - lower) / step⌉₊ := by
  have hiff : ∀ n : Nat, upper ≤ lower + n * step ↔ (upper - lower) / step ≤ n := fun n => by
    rw [div_le_iff₀ hstep, sub_le_iff_le_add']
  refine ⟨(hiff _).mpr (Nat.le_ceil _), fun n hn => ?_⟩
  exact Nat.ceil_le.mpr ((hiff n).mp hn)

end Lib
