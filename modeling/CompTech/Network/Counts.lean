import CompTech.Network.Slices

/-!
# The number of threads on its way

A count of threads comes from the command line as an `int`, is divided as an `unsigned`, goes into a
task as an `int` again and over the wire to a worker; and what is checked on the way is that it is
not 0. `fill_thread_info` counts with it and stores at `n_threads - 1`, which is in front of the
array as soon as the count is negative.

The last worker has the largest share, so it decides for all of them (`counts_in_bounds_iff`): the
share must still be positive as an `int`. At the worker itself the count must be.
-/

namespace CompTech.Network

/-! ## The indices of fill_thread_info

The list of the records a call stores to. It is the right list because the call is undefined exactly
where one of them is outside. -/

/-- Every index of `infosp` that `fill_thread_info` uses, in order. -/
def fillIndices (infoSize nThreads : Int) : List Int :=
  (List.range' 0 (nThreads - 1).toNat).map (fun i : Nat => (i : Int)) ++ [nThreads - 1] ++
    (List.range (infoSize - nThreads).toNat).map fun i : Nat => nThreads + i

section

variable {φ : Type}

theorem length_fillRound {w : ℚ} {foo : φ} {p p' : List (ThreadInfo φ) × ℚ × ℚ} {i : Nat}
    (h : fillRound w foo p i = some p') : p'.1.length = p.1.length := by
  obtain ⟨l, hl, rfl⟩ := Option.map_eq_some_iff.mp h
  exact Lib.length_storeAt hl

/-- The loop over the slices is defined when it has room for them. -/
theorem fillRound_isSome_iff {w : ℚ} {foo : φ} {p : List (ThreadInfo φ) × ℚ × ℚ} {n : Nat} :
    ((List.range' 0 n).foldlM (fillRound w foo) p).isSome = true ↔ n ≤ p.1.length := by
  rw [Lib.foldlM_isSome_iff (fun p => p.1.length)
    (fun p i => by rw [fillRound, Option.isSome_map, Lib.storeAt_isSome_iff]) length_fillRound]
  constructor
  · intro hall
    by_contra hlt
    have := hall (n - 1) (List.mem_range'_1.mpr (by omega))
    omega
  · intro hle i hi
    have := (List.mem_range'_1.mp hi).2
    omega

/-- The loop over the threads that work for no result, with the value that is returned. -/
theorem surplus_isSome_iff {l : List (ThreadInfo φ)} {f : Nat → ThreadInfo φ → ThreadInfo φ}
    {s n : Nat} : (((List.range' s n).foldlM (fun l i => Lib.storeAt l i (f i)) l).bind
      fun infosp => some ((0 : Int), some infosp)).isSome = true ↔
      ∀ i, s ≤ i → i < s + n → i < l.length := by
  have hret : ∀ l : Option (List (ThreadInfo φ)),
      (l.bind fun infosp => some ((0 : Int), some infosp)).isSome = l.isSome := by
    intro l
    cases l <;> rfl
  rw [hret, Lib.foldlM_isSome_iff List.length (fun _ _ => Lib.storeAt_isSome_iff)
    (fun h => Lib.length_storeAt h)]
  exact forall_congr' fun i => by rw [List.mem_range'_1, and_imp]

theorem mem_fillIndices {infoSize : Int} {n : Nat} {k : Int} :
    k ∈ fillIndices infoSize (n + 1 : Nat) ↔
      (0 ≤ k ∧ k ≤ n) ∨ ((n : Int) < k ∧ k < infoSize) := by
  simp only [fillIndices, List.mem_append, List.mem_map, List.mem_range'_1, List.mem_singleton,
    List.mem_range]
  constructor
  · rintro ((⟨i, hi, rfl⟩ | rfl) | ⟨i, hi, rfl⟩) <;> omega
  · rintro (⟨h, h'⟩ | ⟨h, h'⟩)
    · left
      by_cases hlast : k = n
      · exact .inr (by omega)
      · exact .inl ⟨k.toNat, by omega, by omega⟩
    · exact .inr ⟨(k - (n + 1)).toNat, by omega, by omega⟩

/-- The function is defined when each of the indices is in the array. -/
theorem fillThreadInfo_isSome_iff {infosp : List (ThreadInfo φ)} {init : ThreadInfo φ}
    {infoSize nThreads : Int} (hn : nThreads ≠ 0) :
    (fillThreadInfo (some infosp) infoSize init nThreads).isSome = true ↔
      ∀ k ∈ fillIndices infoSize nThreads, 0 ≤ k ∧ k < infosp.length := by
  rcases Int.lt_or_gt_of_ne hn with hneg | hpos
  · -- in front of the array
    have hround : (nThreads - 1).toNat = 0 := by omega
    refine iff_of_false ?_ fun h => ?_
    · simp [fillThreadInfo, hn, hneg, hround]
    · have hlast := h (nThreads - 1) (by simp [fillIndices])
      omega
  · obtain ⟨n, rfl⟩ : ∃ n : Nat, nThreads = (n + 1 : Nat) := ⟨(nThreads - 1).toNat, by omega⟩
    have hlast : (((n + 1 : Nat) : Int) - 1).toNat = n := by omega
    simp only [fillThreadInfo, if_neg hn, if_neg (show ¬ ((n + 1 : Nat) : Int) < 0 by omega),
      hlast, Int.toNat_natCast, Option.bind_eq_bind]
    -- the store of the last slice is out
    have hout : infosp.length ≤ n →
        ¬ ∀ k ∈ fillIndices infoSize (n + 1 : Nat), 0 ≤ k ∧ k < infosp.length := by
      intro hle h
      have := h n (mem_fillIndices.mpr (.inl ⟨by omega, le_refl _⟩))
      omega
    have hdef := @fillRound_isSome_iff _ ((init.end_ - init.begin_) / ((n + 1 : Nat) : Int))
      init.foo
      (infosp, init.begin_, init.begin_ + (init.end_ - init.begin_) / ((n + 1 : Nat) : Int)) n
    generalize hloop : List.foldlM (fillRound _ _) _ _ = slices at hdef ⊢
    cases slices with
    | none =>
      have hlt : ¬ n ≤ infosp.length := fun h => absurd (hdef.mpr h) (by simp)
      exact iff_of_false (by simp) (hout (by omega))
    | some p =>
      have hlen : p.1.length = infosp.length := @Lib.length_foldlM _ (fun p => p.1.length) _
        length_fillRound _ _ _ hloop
      rw [Option.bind_some]
      by_cases hin : n < p.1.length
      · rw [Lib.storeAt_of_lt _ hin, Option.bind_some]
        refine surplus_isSome_iff.trans ?_
        rw [List.length_mapIdx]
        constructor
        · intro hall k hk
          rcases mem_fillIndices.mp hk with ⟨hlo, hhi⟩ | ⟨hlo, hhi⟩
          · omega
          · have := hall k.toNat (by omega) (by omega)
            omega
        · intro hall i hlo hhi
          have := hall i (mem_fillIndices.mpr (.inr (by omega)))
          omega
      · rw [Lib.storeAt, if_neg hin]
        exact iff_of_false (by simp) (hout (by omega))

/-- What is asked of a count on a machine with `nCpus` processors. -/
structure CountOk (nCpus n : Int) : Prop where
  positive : 1 ≤ n
  inBounds : ∀ k ∈ fillIndices (max n nCpus) n, 0 ≤ k ∧ k < max n nCpus

theorem countOk_iff {nCpus n : Int} : CountOk nCpus n ↔ 0 < n := by
  refine ⟨fun h => h.positive, fun h => ⟨h, fun k hk => ?_⟩⟩
  obtain ⟨m, rfl⟩ : ∃ m : Nat, n = (m + 1 : Nat) := ⟨(n - 1).toNat, by omega⟩
  rcases mem_fillIndices.mp hk with ⟨hlo, hhi⟩ | ⟨hlo, hhi⟩
  · exact ⟨hlo, by omega⟩
  · exact ⟨by omega, hhi⟩

/-- The records of `Integrate` are as many as its threads or its processors, so it stays among them
    when the count is one that it may have. -/
theorem integrateInfos_isSome_iff (m : Machine φ) {n : Int} (begin_ end_ : ℚ) (foo : φ)
    (hn : n ≠ 0) : (integrateInfos m n begin_ end_ foo).isSome = true ↔ CountOk m.nCpus n := by
  have hmax : (if n > m.nCpus then n else m.nCpus) = max n m.nCpus := by omega
  rw [integrateInfos, hmax, fillThreadInfo_isSome_iff hn, countOk_iff]
  simp only [buildThreadInfo, List.length_map, List.length_range]
  constructor
  · intro h
    have hlast := h (n - 1) (by simp [fillIndices])
    omega
  · intro hpos k hk
    have := (countOk_iff.mpr hpos : CountOk m.nCpus n).inBounds k hk
    omega

end

/-! ## The shares as ints

The shares are unsigned and at most `n_threads`. The last share is the largest, as it has the
remainder too. -/

section

variable {nCpus nMachines nThreads : BitVec 32} {mem : Allocs} {begin_ end_ : ℚ}
  {tasks : TasksForWorkers}

/-- The counts that a successful `divide_work` puts into its tasks. -/
theorem nThreads_of_divideWork
    (h : divideWork nCpus mem nMachines nThreads begin_ end_ = some (some tasks, .success)) :
    ∃ m q, m = min nMachines.toNat nThreads.toNat ∧ 1 ≤ m ∧ q = nThreads.toNat / m ∧
      tasks.task.map (fun t => t.wInfo.nThreads) = (List.range m).map fun i =>
        BitVec.ofNat 32 (shareOf m q (nThreads.toNat - (m - 1) * q) i) := by
  have hne : ¬ (nMachines = 0 ∨ nThreads = 0) := by
    intro hzero
    rw [divideWork, if_pos hzero] at h
    exact absurd h (by simp)
  have hcpus : nCpus ≠ 0 := by
    intro hzero
    rw [divideWork, if_neg hne, if_pos hzero] at h
    exact absurd h (by simp)
  have hmem : mem = ⟨true, true⟩ := by
    rw [divideWork, if_neg hne, if_neg hcpus] at h
    obtain ⟨malloc, calloc⟩ := mem
    cases malloc with
    | false => exact absurd h (by simp)
    | true =>
      cases calloc with
      | false => exact absurd h (by simp)
      | true => rfl
  have hpos : ∀ {w : BitVec 32}, w ≠ 0 → 1 ≤ w.toNat := by
    intro w hw
    exact Nat.one_le_iff_ne_zero.mpr fun hzero => hw (BitVec.eq_of_toNat_eq hzero)
  have hm := hpos fun hzero => hne (.inl hzero)
  have hn := hpos fun hzero => hne (.inr hzero)
  subst hmem
  rw [divideWork_tasks hcpus hm hn rfl rfl] at h
  simp only [Option.some.injEq, Prod.mk.injEq, and_true] at h
  subst h
  refine ⟨_, _, rfl, Nat.le_min.mpr ⟨hm, hn⟩, rfl, ?_⟩
  rw [List.map_map]
  refine List.map_congr_left fun i _ => ?_
  simp only [Function.comp_apply, taskAt, shareOf]
  split <;> rfl

/-- A count of 1 to 2³² - 1 is positive as an `int` in the lower half. -/
theorem toInt_ofNat_pos_iff {k : Nat} (hk : 0 < k) (hk' : k < 2 ^ 32) :
    0 < (BitVec.ofNat 32 k).toInt ↔ k < 2 ^ 31 := by
  rw [BitVec.toInt_eq_toNat_cond, BitVec.toNat_ofNat, Nat.mod_eq_of_lt hk']
  split <;> omega

/-- **The counts stay in bounds** when the share of the last worker is positive as an `int`, and
    what a worker receives is. The counts are `unsigned` in one place and `int` in another; a count
    from 2³¹ on is negative at the other end, and `infosp[n_threads - 1]` is then in front of the
    array. -/
theorem counts_in_bounds_iff
    (h : divideWork nCpus mem nMachines nThreads begin_ end_ = some (some tasks, .success))
    (cpus : Int) :
    ((∀ t ∈ tasks.task, CountOk cpus t.wInfo.nThreads.toInt) ↔
      nThreads.toNat / min nMachines.toNat nThreads.toNat +
        nThreads.toNat % min nMachines.toNat nThreads.toNat < 2 ^ 31) ∧
    ∀ n : BitVec 32, n ≠ 0 → (CountOk cpus n.toInt ↔ 0 < n.toInt) := by
  refine ⟨?_, fun n _ => countOk_iff⟩
  obtain ⟨m, q, hm, hpos, hq, hcounts⟩ := nThreads_of_divideWork h
  rw [← hm, ← hq]
  have hlt := nThreads.isLt
  have hmn : m ≤ nThreads.toNat := hm ▸ Nat.min_le_right _ _
  have hqpos : 0 < q := hq ▸ Nat.div_pos hmn hpos
  have hlast : nThreads.toNat - (m - 1) * q = q + nThreads.toNat % m := by
    have hdiv := Nat.div_add_mod nThreads.toNat m
    rw [← hq] at hdiv
    rw [Nat.sub_mul, Nat.one_mul]
    have := Nat.le_mul_of_pos_left q hpos
    omega
  have hsmall : q + nThreads.toNat % m < 2 ^ 32 := by omega
  have hall : (∀ t ∈ tasks.task, CountOk cpus t.wInfo.nThreads.toInt) ↔
      ∀ i < m, shareOf m q (q + nThreads.toNat % m) i < 2 ^ 31 := by
    calc (∀ t ∈ tasks.task, CountOk cpus t.wInfo.nThreads.toInt)
      _ ↔ ∀ w ∈ tasks.task.map (fun t => t.wInfo.nThreads), 0 < w.toInt := by
        simp only [countOk_iff, List.forall_mem_map]
      _ ↔ ∀ i < m, 0 < (BitVec.ofNat 32 (shareOf m q (q + nThreads.toNat % m) i)).toInt := by
        rw [hcounts, hlast]
        simp only [List.forall_mem_map, List.mem_range]
      _ ↔ _ := by
        refine forall_congr' fun i => imp_congr_right fun _ => toInt_ofNat_pos_iff ?_ ?_
        · unfold shareOf
          split <;> omega
        · unfold shareOf
          split <;> omega
  rw [hall]
  constructor
  · intro hshares
    have := hshares (m - 1) (by omega)
    rwa [shareOf, if_neg (by omega)] at this
  · intro hshare i _
    unfold shareOf
    split <;> omega

/-- Five threads for two machines. -/
theorem counts_in_bounds_five : ∃ tasks : TasksForWorkers,
    divideWork 4 ⟨true, true⟩ 2 5 0 1 = some (some tasks, .success) ∧
    ((∀ t ∈ tasks.task, CountOk 8 t.wInfo.nThreads.toInt) ↔
      (5 : BitVec 32).toNat / min (2 : BitVec 32).toNat (5 : BitVec 32).toNat +
        (5 : BitVec 32).toNat % min (2 : BitVec 32).toNat (5 : BitVec 32).toNat < 2 ^ 31) ∧
    ∀ n : BitVec 32, n ≠ 0 → (CountOk 8 n.toInt ↔ 0 < n.toInt) := by
  have hdivide : divideWork 4 ⟨true, true⟩ 2 5 0 1 = some (some _, .success) :=
    divideWork_tasks (by decide) (by decide) (by decide) rfl rfl
  exact ⟨_, hdivide, counts_in_bounds_iff hdivide 8⟩

/-- `-1` threads for one machine: `divide_work` reports success, and the task has `-1` threads. -/
theorem counts_minus_one : ¬ ∀ (nMachines nThreads : BitVec 32) (tasks : TasksForWorkers),
    divideWork 4 ⟨true, true⟩ nMachines nThreads 0 1 = some (some tasks, .success) →
    ∀ t ∈ tasks.task, CountOk 4 t.wInfo.nThreads.toInt := by
  intro hall
  have hdivide : divideWork 4 ⟨true, true⟩ 1 (BitVec.ofInt 32 (-1)) 0 1 = some (some _, .success) :=
    divideWork_tasks (by decide) (by decide) (by decide) rfl rfl
  have htask := hall _ _ _ hdivide _ (List.mem_map.mpr ⟨0, by decide, rfl⟩)
  exact absurd htask.positive (by decide)

end

end CompTech.Network
