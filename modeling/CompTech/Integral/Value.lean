import CompTech.Integral.Partition
import CompTech.Lib.Loop
import CompTech.Lib.Tables

/-!
# What the local integrator prints

A thread adds left rectangles from the beginning of its interval until it has passed its end, so
it comes to `⌈width / step⌉` of them, and the last one may reach over. Every thread that `main`
joins ends, whatever is asked for, and `main_prints` is the number that is printed.

A division of the work should not show in the result. `threads_agree_iff` is when it does not: no
thread is a surplus one, and — as soon as there are two — a slice is a whole number of steps.

A thread is treated as a loop on its own, since the threads share nothing but the records they
write.
-/

namespace CompTech.Integral

variable {f : ℚ → ℚ} {step a x1 x2 : ℚ} {n P K : Nat}

/-! ## Left rectangles

The rule in its own terms: how many rectangles it takes to come to the end, and their sum. -/

/-- `K` rectangles, the first at `a`. -/
def leftSum (f : ℚ → ℚ) (step a : ℚ) (K : Nat) : ℚ :=
  ∑ k ∈ Finset.range K, f (a + k * step) * step

theorem leftSum_add (K M : Nat) :
    leftSum f step a (K + M) = leftSum f step a K + leftSum f step (a + K * step) M := by
  rw [leftSum, Finset.sum_range_add]
  refine congrArg (leftSum f step a K + ·) (Finset.sum_congr rfl fun k _ => ?_)
  push_cast
  ring_nf

theorem leftSum_succ' (K : Nat) :
    leftSum f step a (K + 1) = f a * step + leftSum f step (a + step) K := by
  rw [Nat.add_comm K 1, leftSum_add]
  simp [leftSum]

/-- Whole runs of rectangles, one behind the other. -/
theorem leftSum_mul (n K : Nat) : leftSum f step a (n * K) =
    ∑ i ∈ Finset.range n, leftSum f step (a + i * (K * step)) K := by
  induction n with
  | zero => simp [leftSum]
  | succ n ih =>
    rw [Nat.succ_mul, leftSum_add, ih, Finset.sum_range_succ, Nat.cast_mul, mul_assoc]

theorem leftSum_nonneg (hf : ∀ x, 0 ≤ f x) (hstep : 0 < step) : 0 ≤ leftSum f step a K :=
  Finset.sum_nonneg fun _ _ => mul_nonneg (hf _) hstep.le

/-! ## integral -/

/-- The loop has a rectangle for each `k` below the first that leads to `x2`. Induction on their
    number. -/
theorem integralLoop_eq : ∀ {K fuel : Nat} {x sum : ℚ}, (∀ k < K, x + k * step < x2) →
    x2 ≤ x + K * step → K < fuel →
      integralLoop f x2 step fuel x sum = some (sum + leftSum f step x K) := by
  intro K
  induction K with
  | zero =>
    intro fuel x sum _ hend hfuel
    obtain ⟨fuel, rfl⟩ := Nat.exists_eq_succ_of_ne_zero (Nat.ne_zero_of_lt hfuel)
    have hstop : ¬x < x2 := by simpa using hend
    rw [integralLoop, if_neg hstop]
    simp [leftSum]
  | succ K ih =>
    intro fuel x sum hgo hend hfuel
    obtain ⟨fuel, rfl⟩ := Nat.exists_eq_succ_of_ne_zero (Nat.ne_zero_of_lt hfuel)
    have hmove : ∀ k : Nat, x + step + k * step = x + ((k + 1 : Nat) : ℚ) * step := fun k => by
      push_cast
      ring
    have hfirst : x < x2 := by simpa using hgo 0 (Nat.succ_pos K)
    rw [integralLoop, if_pos hfirst,
      ih (fun k hk => hmove k ▸ hgo (k + 1) (by omega)) (hmove K ▸ hend) (by omega),
      leftSum_succ', add_assoc]

/-- The rectangles of an interval. -/
def steps (step : ℚ) (s : ℚ × ℚ) : Nat := ⌈(s.2 - s.1) / step⌉₊

/-- What a thread makes of its interval. -/
def rectangles (f : ℚ → ℚ) (step : ℚ) (s : ℚ × ℚ) : ℚ := leftSum f step s.1 (steps step s)

theorem integral_eq (hstep : 0 < step) {t : ThreadInfo} (ht : t.step = step) {fuel : Nat}
    (hfuel : steps step t.interval < fuel) :
    integral f fuel t = some { t with sum := rectangles f step t.interval } := by
  have hleast := @Lib.isLeast_ceil step t.x1 t.x2 hstep
  have hgo : ∀ k < steps step t.interval, t.x1 + k * step < t.x2 := fun k hk =>
    not_le.mp fun hle => absurd (hleast.2 hle) (not_le.mpr hk)
  rw [integral, ht, integralLoop_eq hgo hleast.1 hfuel, zero_add]
  rfl

/-! ## main -/

section Main

/-- The intervals that count, one for each useful thread and one for each surplus one. -/
def addedIntervals (x1 x2 step : ℚ) (n P : Nat) : List (ℚ × ℚ) :=
  Lib.equalSlices (deltaX x1 x2 n P) x1 (min n P) ++ List.replicate (n - P) (x1, x1 + step)

theorem summed_intervals_eq {l : Launch} (hl : l.Plain n P) (hn : 1 ≤ n) (hP : 1 ≤ P)
    {info : IntegralInfo} (h : integralInfoConstruct l x1 x2 step = some info) :
    info.summed.map ThreadInfo.interval = addedIntervals x1 x2 step n P := by
  rw [summed_intervals hl hn hP h, addedIntervals]
  by_cases hle : n ≤ P
  · rw [if_pos hle, Nat.min_eq_left hle, Nat.sub_eq_zero_of_le hle, List.replicate_zero,
      List.append_nil]
  · rw [if_neg hle, Nat.min_eq_right (by omega)]

/-- No thread has more rectangles than fit a slice, or one. -/
theorem threadOf_steps (hstep : 0 < step) (i : Nat) :
    (threadOf x1 x2 step n P i).step = step ∧
      steps step (threadOf x1 x2 step n P i).interval ≤ max 1 ⌈deltaX x1 x2 n P / step⌉₊ := by
  unfold threadOf
  split
  · refine ⟨rfl, le_max_of_le_right (le_of_eq ?_)⟩
    simp [steps, ThreadInfo.interval, emptyThread]
  · split
    · refine ⟨rfl, le_max_of_le_right (le_of_eq ?_)⟩
      simp only [steps, ThreadInfo.interval, usefulThread]
      ring_nf
    · refine ⟨rfl, le_max_of_le_left (le_of_eq ?_)⟩
      simp [steps, ThreadInfo.interval, surplusThread, hstep.ne']

/-- `main` waits for the idle threads too, and all of them end. -/
theorem main_eq {l : Launch} (hl : l.Plain n P) (hn : 1 ≤ n) (hP : 1 ≤ P) (hstep : 0 < step)
    {fuel : Nat} (hfuel : max 1 ⌈deltaX x1 x2 n P / step⌉₊ < fuel) :
    main l f fuel x1 x2 step =
      some ((addedIntervals x1 x2 step n P).map (rectangles f step)).sum := by
  have hinfo := @integralInfoConstruct_eq x1 x2 step n P l hl hn hP
  have hsummed := summed_intervals_eq hl hn hP hinfo
  have hall : ∀ t ∈ (List.range (max n P)).map (threadOf x1 x2 step n P),
      integral f fuel t = some { t with sum := rectangles f step t.interval } := by
    intro t ht
    obtain ⟨i, -, rfl⟩ := List.mem_map.mp ht
    obtain ⟨hwith, hfew⟩ := @threadOf_steps step x1 x2 n P hstep i
    exact integral_eq hstep hwith (hfew.trans_lt hfuel)
  rw [main, hinfo]
  simp only [Option.bind_eq_bind, Option.bind_some, Lib.mapM_eq_some hall]
  rw [joinThreads_eq _ (Int.natCast_nonneg _)
    (by simp only [List.length_map, List.length_range, Int.toNat_natCast, le_refl]), ← hsummed]
  simp only [IntegralInfo.summed, ← List.map_take, ← List.map_drop, List.map_map]
  rfl

/-- `main` prints `s`, if it is left to run. -/
def Prints (l : Launch) (f : ℚ → ℚ) (x1 x2 step s : ℚ) : Prop :=
  ∃ rounds, ∀ fuel, rounds < fuel → main l f fuel x1 x2 step = some s

theorem Prints.unique {l : Launch} {s s' : ℚ} (h : Prints l f x1 x2 step s)
    (h' : Prints l f x1 x2 step s') : s = s' := by
  obtain ⟨m, hm⟩ := h
  obtain ⟨m', hm'⟩ := h'
  exact Option.some_inj.mp ((hm (m + m' + 1) (by omega)).symm.trans (hm' (m + m' + 1) (by omega)))

/-- The slices of the useful threads, and the first rectangle again for each surplus thread. -/
def printed (f : ℚ → ℚ) (x1 x2 step : ℚ) (n P : Nat) : ℚ :=
  ∑ i ∈ Finset.range (min n P),
      leftSum f step (x1 + i * deltaX x1 x2 n P) ⌈deltaX x1 x2 n P / step⌉₊ +
    (n - P : Nat) * (f x1 * step)

theorem rectangles_surplus (hstep : 0 < step) :
    rectangles f step (x1, x1 + step) = f x1 * step := by
  have hone : steps step (x1, x1 + step) = 1 := by simp [steps, hstep.ne']
  rw [rectangles, hone, leftSum]
  simp

theorem sum_addedIntervals (hstep : 0 < step) :
    ((addedIntervals x1 x2 step n P).map (rectangles f step)).sum = printed f x1 x2 step n P := by
  rw [addedIntervals, List.map_append, List.sum_append, List.map_replicate, List.sum_replicate,
    rectangles_surplus hstep, nsmul_eq_mul, printed, Lib.equalSlices, List.map_map,
    ← List.sum_toFinset _ List.nodup_range, List.toFinset_range]
  refine congrArg (· + _) (Finset.sum_congr rfl fun i _ => ?_)
  simp only [Function.comp_apply, rectangles, steps]
  ring_nf

theorem prints_printed {l : Launch} (hl : l.Plain n P) (hn : 1 ≤ n) (hP : 1 ≤ P) (hstep : 0 < step)
    (f : ℚ → ℚ) : Prints l f x1 x2 step (printed f x1 x2 step n P) :=
  ⟨_, fun _ hfuel => sum_addedIntervals hstep ▸ main_eq hl hn hP hstep hfuel⟩

/-- **What is printed.** For every number of threads and of processors, every integrand, interval
    and step, all threads end and the number that `main` prints is the one of `printed`. -/
theorem main_prints {l : Launch} (hl : l.Plain n P) (hn : 1 ≤ n) (hP : 1 ≤ P) (hstep : 0 < step)
    (f : ℚ → ℚ) (s : ℚ) : Prints l f x1 x2 step s ↔ s = printed f x1 x2 step n P := by
  have h : Prints l f x1 x2 step _ := prints_printed hl hn hP hstep f
  exact ⟨fun hs => hs.unique h, fun hs => hs ▸ h⟩

/-- Three threads on two processors, under a constant: the interval and a step. -/
theorem main_prints_three :
    Prints ⟨3, true, 2, true, fun _ => ⟨0, 0, 0, 0, 0, 0⟩⟩ (fun _ => 1) 0 1 (1 / 2) (3 / 2) :=
  (main_prints (n := 3) (P := 2) ⟨rfl, rfl, rfl, rfl⟩ (by decide) (by decide) (by norm_num) _ _).mpr
    (by norm_num [printed, deltaX, leftSum])

end Main

/-! ## One thread -/

theorem printed_one (hP : 1 ≤ P) :
    printed f x1 x2 step 1 P = leftSum f step x1 ⌈(x2 - x1) / step⌉₊ := by
  simp [printed, deltaX, Nat.sub_eq_zero_of_le hP, hP]

/-- An integrand that sees one point. -/
def spike (p : ℚ) (x : ℚ) : ℚ := if x = p then 1 else 0

theorem spike_nonneg (p x : ℚ) : 0 ≤ spike p x := by
  unfold spike
  split <;> norm_num

theorem exists_node_of_ne_zero {p : ℚ} (h : leftSum (spike p) step a K ≠ 0) :
    ∃ k : Nat, k < K ∧ a + k * step = p := by
  obtain ⟨k, hk, hne⟩ := Finset.exists_ne_zero_of_sum_ne_zero h
  refine ⟨k, Finset.mem_range.mp hk, ?_⟩
  by_contra hoff
  exact hne (by rw [spike, if_neg hoff, zero_mul])

/-- No later node of an ascending walk is the first one. -/
theorem leftSum_spike_head (hstep : 0 < step) (hK : 1 ≤ K) : leftSum (spike a) step a K = step := by
  obtain ⟨K, rfl⟩ := Nat.exists_eq_succ_of_ne_zero (Nat.ne_zero_of_lt hK)
  have hrest : leftSum (spike a) step (a + step) K = 0 := by
    by_contra hne
    obtain ⟨k, -, hk⟩ := exists_node_of_ne_zero hne
    have hback : 0 ≤ (k : ℚ) * step := mul_nonneg (Nat.cast_nonneg k) hstep.le
    linarith
  rw [Nat.succ_eq_add_one, leftSum_succ', hrest, spike, if_pos rfl, one_mul, add_zero]

/-! ## Any number of threads, and one

The difference between the two numbers is tested with integrands that are zero but at one point,
where one of them has a rectangle and the other has none. -/

section Agree

theorem deltaX_pos (hn : 1 ≤ n) (hP : 1 ≤ P) (hx : x1 < x2) : 0 < deltaX x1 x2 n P := by
  have hn' : (0 : ℚ) < n := by exact_mod_cast hn
  have hP' : (0 : ℚ) < P := by exact_mod_cast hP
  unfold deltaX
  split
  · exact div_pos (sub_pos.mpr hx) hn'
  · exact div_pos (sub_pos.mpr hx) hP'

/-- What one thread adds is part of what is printed. -/
theorem leftSum_add_le_printed (hf : ∀ x, 0 ≤ f x) (hstep : 0 < step) {i : Nat}
    (hi : i < min n P) :
    leftSum f step (x1 + i * deltaX x1 x2 n P) ⌈deltaX x1 x2 n P / step⌉₊ +
      (n - P : Nat) * (f x1 * step) ≤ printed f x1 x2 step n P := by
  refine add_le_add_left (Finset.single_le_sum (f := fun i : Nat =>
    leftSum f step (x1 + i * deltaX x1 x2 n P) ⌈deltaX x1 x2 n P / step⌉₊) ?_ ?_) _
  · exact fun _ _ => leftSum_nonneg hf hstep
  · exact Finset.mem_range.mpr hi

/-- A surplus thread doubles a spike at the beginning. -/
theorem le_of_agree (hn : 1 ≤ n) (hP : 1 ≤ P) (hstep : 0 < step) (hx : x1 < x2)
    (h : printed (spike x1) x1 x2 step n P = leftSum (spike x1) step x1 ⌈(x2 - x1) / step⌉₊) :
    n ≤ P := by
  by_contra hmore
  have hone : leftSum (spike x1) step x1 ⌈(x2 - x1) / step⌉₊ = step :=
    leftSum_spike_head hstep (Nat.ceil_pos.mpr (div_pos (sub_pos.mpr hx) hstep))
  have hfirst := @leftSum_add_le_printed (spike x1) step x1 x2 n P (spike_nonneg x1) hstep 0
    (by omega)
  rw [Nat.cast_zero, zero_mul, add_zero,
    leftSum_spike_head hstep (Nat.ceil_pos.mpr (div_pos (deltaX_pos hn hP hx) hstep)),
    h, hone, spike, if_pos rfl, one_mul] at hfirst
  have hsurplus : (1 : ℚ) ≤ (n - P : Nat) := by exact_mod_cast (by omega : 1 ≤ n - P)
  nlinarith

/-- The second thread begins at a node of the first. -/
theorem whole_of_agree (hn : 2 ≤ n) (hle : n ≤ P) (hstep : 0 < step) (hx : x1 < x2)
    (h : ∀ f, printed f x1 x2 step n P = leftSum f step x1 ⌈(x2 - x1) / step⌉₊) :
    ∃ K : Nat, x2 - x1 = n * (K * step) := by
  have hdelta : deltaX x1 x2 n P = (x2 - x1) / n := if_pos hle
  have hpos : 0 < deltaX x1 x2 n P := deltaX_pos (by omega) (by omega) hx
  have hsecond := @leftSum_add_le_printed (spike (x1 + deltaX x1 x2 n P)) step x1 x2 n P
    (spike_nonneg _) hstep 1 (by omega)
  rw [Nat.cast_one, one_mul, leftSum_spike_head hstep (Nat.ceil_pos.mpr (div_pos hpos hstep)),
    Nat.sub_eq_zero_of_le hle, Nat.cast_zero, zero_mul, add_zero, h] at hsecond
  obtain ⟨K, -, hK⟩ := exists_node_of_ne_zero (hstep.trans_le hsecond).ne'
  refine ⟨K, ?_⟩
  rw [add_left_cancel hK, hdelta]
  have hn' : (n : ℚ) ≠ 0 := by exact_mod_cast (by omega : n ≠ 0)
  field_simp

/-- Slices of whole steps are one long walk. -/
theorem printed_whole (hn : 1 ≤ n) (hle : n ≤ P) (hstep : 0 < step)
    (hK : x2 - x1 = n * (K * step)) :
    printed f x1 x2 step n P = leftSum f step x1 ⌈(x2 - x1) / step⌉₊ := by
  have hn' : (n : ℚ) ≠ 0 := by exact_mod_cast (by omega : n ≠ 0)
  have hdelta : deltaX x1 x2 n P = K * step := by
    rw [deltaX, if_pos hle, hK, mul_div_cancel_left₀ _ hn']
  have hslice : ⌈(K : ℚ) * step / step⌉₊ = K := by
    rw [mul_div_cancel_right₀ _ hstep.ne', Nat.ceil_natCast]
  have hwhole : ⌈(n : ℚ) * (K * step) / step⌉₊ = n * K := by
    rw [← mul_assoc, mul_div_cancel_right₀ _ hstep.ne', ← Nat.cast_mul, Nat.ceil_natCast]
  rw [printed, hdelta, hslice, Nat.min_eq_left hle, Nat.sub_eq_zero_of_le hle, hK, hwhole,
    leftSum_mul, Nat.cast_zero, zero_mul, add_zero]

/-- **The number of threads** does not show in the result, whatever the integrand, exactly when
    no thread is a surplus one and the slices of two or more threads are whole steps. -/
theorem threads_agree_iff {l one : Launch} {Q : Nat} (hl : l.Plain n P) (hone : one.Plain 1 Q)
    (hn : 1 ≤ n) (hP : 1 ≤ P) (hQ : 1 ≤ Q) (hstep : 0 < step) (hx : x1 < x2) :
    (∀ f s, Prints l f x1 x2 step s ↔ Prints one f x1 x2 step s) ↔
      n ≤ P ∧ (n = 1 ∨ ∃ K : Nat, x2 - x1 = n * (K * step)) := by
  have hmany (f : ℚ → ℚ) : Prints l f x1 x2 step (printed f x1 x2 step n P) :=
    prints_printed hl hn hP hstep f
  have hsingle (f : ℚ → ℚ) :
      Prints one f x1 x2 step (leftSum f step x1 ⌈(x2 - x1) / step⌉₊) :=
    printed_one hQ ▸ prints_printed hone (le_refl 1) hQ hstep f
  have hagree : (∀ f s, Prints l f x1 x2 step s ↔ Prints one f x1 x2 step s) ↔
      ∀ f, printed f x1 x2 step n P = leftSum f step x1 ⌈(x2 - x1) / step⌉₊ := by
    constructor
    · intro h f
      exact ((h f _).mp (hmany f)).unique (hsingle f)
    · intro h f s
      constructor
      · intro hs
        rw [hs.unique (hmany f), h f]
        exact hsingle f
      · intro hs
        rw [hs.unique (hsingle f), ← h f]
        exact hmany f
  rw [hagree]
  constructor
  · intro h
    have hle := le_of_agree hn hP hstep hx (h _)
    refine ⟨hle, ?_⟩
    by_cases htwo : 2 ≤ n
    · exact .inr (whole_of_agree htwo hle hstep hx h)
    · exact .inl (by omega)
  · rintro ⟨hle, rfl | ⟨K, hK⟩⟩ f
    · exact printed_one hP
    · exact printed_whole hn hle hstep hK

/-- Two threads over ten steps, and one. -/
theorem threads_agree_twoOnFour :
    (∀ f s, Prints twoOnFour f 0 1 (1 / 10) s ↔
      Prints ⟨1, true, 4, true, fun _ => ⟨0, 0, 0, 0, 0, 0⟩⟩ f 0 1 (1 / 10) s) ↔
      2 ≤ 4 ∧ (2 = 1 ∨ ∃ K : Nat, (1 : ℚ) - 0 = (2 : Nat) * (K * (1 / 10))) :=
  threads_agree_iff (n := 2) (P := 4) (Q := 4) ⟨rfl, rfl, rfl, rfl⟩ ⟨rfl, rfl, rfl, rfl⟩
    (by decide) (by decide) (by decide) (by norm_num) (by norm_num)

end Agree

end CompTech.Integral
