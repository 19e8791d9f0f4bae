import CompTech.Lib.Loop

/-!
# The trapezoid rule of `calc.c`

`CalcIntegral` over exact rationals, with the step as an argument; it is what `start_routine`
stores in the record of its thread. The loop carries the two values
of the integrand from round to round to save one call in each, and reads the new one at the
left end of the next interval: from the second round on it is one node late. `calcIntegral_eq`
is what the loop comes to, `calcIntegral_excess` how far that is from the composite trapezoid rule,
and `calcIntegral_trapezoid_iff` when it is that rule.
-/

namespace CompTech.Network

/-! ## CalcIntegral -/

/-- The local variables of the loop. -/
structure CalcState where
  res : ℚ
  x : ℚ
  f1 : ℚ
  f2 : ℚ

/-- One round of the loop. `f2` is read behind `x += step`, at the new `x`: one node too early for
    the right end of the next interval. -/
def calcRound (step : ℚ) (foo : ℚ → ℚ) (s : CalcState) : CalcState :=
  let res := s.res + step * (s.f1 + s.f2) / 2
  let x := s.x + step
  let f1 := s.f2
  let f2 := foo x
  ⟨res, x, f1, f2⟩

/-- `none` when the loop has not ended after `fuel` tests. The limits are brought in order first. -/
def calcIntegral (step : ℚ) (fuel : Nat) (begin_ end_ : ℚ) (foo : ℚ → ℚ) : Option ℚ :=
  let (begin_, end_) := if end_ < begin_ then (end_, begin_) else (begin_, end_)
  let start : CalcState := ⟨0, begin_, foo begin_, foo (begin_ + step)⟩
  (Lib.whileLoop (fun s => s.x < end_) (calcRound step foo) fuel start).map (·.res)

/-- The order of the limits does not matter. -/
theorem calcIntegral_swap (step : ℚ) (fuel : Nat) (a b : ℚ) (foo : ℚ → ℚ) :
    calcIntegral step fuel a b foo = calcIntegral step fuel b a foo := by
  unfold calcIntegral
  rcases lt_trichotomy a b with hlt | rfl | hgt
  · rw [if_neg (not_lt.mpr hlt.le), if_pos hlt]
  · rfl
  · rw [if_pos hgt, if_neg (not_lt.mpr hgt.le)]

/-! ## What the loop comes to -/

/-- The integrand at node `k`. -/
def node (step begin_ : ℚ) (foo : ℚ → ℚ) (k : Nat) : ℚ := foo (begin_ + k * step)

/-- The nodes whose values `f1` and `f2` hold in round `k`. -/
def node₁ (k : Nat) : Nat := if k ≤ 1 then k else k - 1
/-- The same for `f2`, which is what `f1` is in the next round. -/
def node₂ (k : Nat) : Nat := if k = 0 then 1 else k

/-- The areas the loop adds, of the first `n` rounds. -/
def areas (step : ℚ) (g : Nat → ℚ) (n : Nat) : ℚ :=
  ∑ k ∈ Finset.range n, step * (g (node₁ k) + g (node₂ k)) / 2

/-- The composite trapezoid rule on `n` intervals. -/
def trapezoid (step : ℚ) (g : Nat → ℚ) (n : Nat) : ℚ :=
  ∑ k ∈ Finset.range n, step * (g k + g (k + 1)) / 2

section

variable {step begin_ end_ : ℚ} {foo : ℚ → ℚ}

/-- The state before round `k`. -/
def calcTrace (step begin_ : ℚ) (foo : ℚ → ℚ) (k : Nat) : CalcState :=
  let g := node step begin_ foo
  ⟨areas step g k, begin_ + k * step, g (node₁ k), g (node₂ k)⟩

theorem node₁_succ (k : Nat) : node₁ (k + 1) = node₂ k := by
  unfold node₁ node₂
  split <;> split <;> omega

theorem calcRound_trace (k : Nat) :
    calcRound step foo (calcTrace step begin_ foo k) = calcTrace step begin_ foo (k + 1) := by
  have hx : begin_ + (k : ℚ) * step + step = begin_ + ((k + 1 : Nat) : ℚ) * step := by
    push_cast
    ring
  have hlast : node₂ (k + 1) = k + 1 := if_neg (Nat.succ_ne_zero k)
  simp only [calcRound, calcTrace, areas, Finset.sum_range_succ, node₁_succ, hx, hlast, node]

theorem calcTrace_zero :
    calcTrace step begin_ foo 0 = ⟨0, begin_, foo begin_, foo (begin_ + step)⟩ := by
  simp [calcTrace, areas, node, node₁, node₂]

/-- **What the loop comes to**, after as many rounds as it takes to reach the end. -/
theorem calcIntegral_eq {n fuel : Nat} (hle : begin_ ≤ end_)
    (hn : IsLeast {n : Nat | end_ ≤ begin_ + n * step} n) (hfuel : n < fuel) :
    calcIntegral step fuel begin_ end_ foo = some (areas step (node step begin_ foo) n) := by
  have hgo : ∀ k < n, (calcTrace step begin_ foo k).x < end_ := fun k hk =>
    not_le.mp fun hreached => Nat.not_le_of_lt hk (hn.2 hreached)
  have hloop : Lib.whileLoop (fun s => s.x < end_) (calcRound step foo) fuel
      (calcTrace step begin_ foo 0) = some (calcTrace step begin_ foo n) :=
    Lib.whileLoop_trace hgo (fun k _ => calcRound_trace k) (not_lt.mpr hn.1) hfuel
  rw [calcTrace_zero] at hloop
  rw [calcIntegral, if_neg (not_lt.mpr hle)]
  exact congrArg (Option.map (·.res)) hloop

/-- The end is reached. -/
theorem exists_rounds (hstep : 0 < step) (begin_ end_ : ℚ) :
    ∃ n, IsLeast {n : Nat | end_ ≤ begin_ + n * step} n := by
  obtain ⟨n, hn⟩ := Archimedean.arch (end_ - begin_) hstep
  have hmem : ∃ n : Nat, end_ ≤ begin_ + n * step := by
    refine ⟨n, ?_⟩
    rw [nsmul_eq_mul] at hn
    linarith
  exact ⟨Nat.find hmem, Nat.find_spec hmem, fun m hm => Nat.find_min' hmem hm⟩

end

/-! ## Against the rule -/

/-- How far the areas are from the trapezoids: node 1 is counted once too often, and the last
    two are missing a half each. Induction on the number of intervals. -/
theorem calcIntegral_excess (step : ℚ) (g : Nat → ℚ) (n : Nat) :
    areas step g (n + 2) =
      trapezoid step g (n + 2) + step * (2 * g 1 - g (n + 1) - g (n + 2)) / 2 := by
  induction n with
  | zero =>
    simp only [areas, trapezoid, Finset.sum_range_succ, Finset.sum_range_zero, node₁, node₂]
    norm_num
    ring
  | succ n ih =>
    have h₁ : node₁ (n + 2) = n + 1 := node₁_succ (n + 1)
    have h₂ : node₂ (n + 2) = n + 2 := rfl
    unfold areas trapezoid at ih ⊢
    rw [Finset.sum_range_succ, ih, Finset.sum_range_succ _ (n + 2), h₁, h₂]
    ring

theorem areas_eq_trapezoid_iff {step : ℚ} (hstep : 0 < step) (g : Nat → ℚ) (n : Nat) :
    areas step g n = trapezoid step g n ↔ n ≤ 1 ∨ g (n - 1) + g n = 2 * g 1 := by
  match n with
  | 0 => simp [areas, trapezoid]
  | 1 => simp [areas, trapezoid, node₁, node₂]
  | n + 2 =>
    have hn : ¬n + 2 ≤ 1 := by omega
    rw [calcIntegral_excess, or_iff_right hn, show n + 2 - 1 = n + 1 by omega, add_eq_left,
      div_eq_zero_iff, mul_eq_zero, or_iff_left (by norm_num : (2 : ℚ) ≠ 0),
      or_iff_right hstep.ne']
    constructor <;> intro h <;> linarith

/-- **When `CalcIntegral` is the trapezoid rule.** With `n` the number of intervals it takes to
    reach the end, it returns, and the result is the rule on `n` intervals exactly if there is at
    most one, or the values at the last two nodes add up to twice that at node 1. The loop adds the
    areas of the rule, but with node values that are one node late from the second round on; the sum
    telescopes, and what is left of the difference is at both ends. -/
theorem calcIntegral_trapezoid_iff {step begin_ end_ : ℚ} (foo : ℚ → ℚ) (hstep : 0 < step)
    (hle : begin_ ≤ end_) :
    ∃ n, IsLeast {n : Nat | end_ ≤ begin_ + n * step} n ∧ ∀ fuel, n < fuel →
      ∃ r, calcIntegral step fuel begin_ end_ foo = some r ∧
        (r = trapezoid step (node step begin_ foo) n ↔
          n ≤ 1 ∨ node step begin_ foo (n - 1) + node step begin_ foo n =
            2 * node step begin_ foo 1) := by
  obtain ⟨n, hn⟩ := exists_rounds hstep begin_ end_
  exact ⟨n, hn, fun fuel hfuel =>
    ⟨_, calcIntegral_eq hle hn hfuel, areas_eq_trapezoid_iff hstep _ n⟩⟩

/-- Between 0 and 3 in steps of 1 a constant is integrated as it should be. -/
theorem calcIntegral_constant : ∃ n, IsLeast {n : Nat | (3 : ℚ) ≤ 0 + n * 1} n ∧
    ∀ fuel, n < fuel → ∃ r, calcIntegral 1 fuel 0 3 (fun _ => 1) = some r ∧
      r = trapezoid 1 (node 1 0 fun _ => 1) n := by
  obtain ⟨n, hn, hcalc⟩ := calcIntegral_trapezoid_iff (fun _ => 1) one_pos
    (show (0 : ℚ) ≤ 3 by norm_num)
  refine ⟨n, hn, fun fuel hfuel => ?_⟩
  obtain ⟨r, hr, hiff⟩ := hcalc fuel hfuel
  exact ⟨r, hr, hiff.mpr (.inr (by norm_num [node]))⟩

/-- The same limits and step, for the identity: 3 where the rule gives 9/2. -/
theorem calcIntegral_late : ¬ ∀ (step begin_ end_ : ℚ) (foo : ℚ → ℚ), 0 < step →
    begin_ ≤ end_ → ∀ n, IsLeast {n : Nat | end_ ≤ begin_ + n * step} n → ∀ fuel, n < fuel →
      calcIntegral step fuel begin_ end_ foo = some (trapezoid step (node step begin_ foo) n) := by
  intro hall
  have hn : IsLeast {n : Nat | (3 : ℚ) ≤ 0 + n * 1} 3 := by
    refine ⟨by norm_num, fun n hn => ?_⟩
    have hle : (3 : ℚ) ≤ n := by simpa using hn
    exact_mod_cast hle
  have hrule := hall 1 0 3 id one_pos (by norm_num) 3 hn 4 (by norm_num)
  rw [calcIntegral_eq (by norm_num) hn (by norm_num), Option.some.injEq,
    areas_eq_trapezoid_iff one_pos] at hrule
  norm_num [node] at hrule

end CompTech.Network
