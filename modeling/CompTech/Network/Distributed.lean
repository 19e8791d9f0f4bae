import CompTech.Network.Collect
import CompTech.Network.Result

/-!
# The distributed integral

The pieces of the system put together: `divide_work` cuts the interval for the workers, each
worker's `Integrate` cuts its task for its threads, the threads run `CalcIntegral`, and
`get_result` adds up what comes back. What a worker sends is the result of a run of `Integrate` on
its own machine (`ComputedBy`); it does not depend on the machine or the schedule, and the slices
of all workers are those of one machine that does everything itself.

The parts come from the imported modules: the closed form of the tasks, the value of a run of
`Integrate`, the invariant of the server. What is new is that the sum of the workers' sums is one
sum over all slices.
-/

namespace CompTech.Network

variable {step begin_ end_ : ℚ} {foo : ℚ → ℚ}

/-- `Integrate`, asked for the task, returns `SUCCESS` with `r`, on some machine in some
    schedule. -/
def ComputedBy (step : ℚ) (foo : ℚ → ℚ) (info : WorkerInfo) (r : ℚ) : Prop :=
  ∃ (w : Calls) (m : Machine (ℚ → ℚ)) (s₀ : IntegrateState (ℚ → ℚ)) (es : List IntegrateAct)
    (s : IntegrateState (ℚ → ℚ)),
    integrateStart w m info.nThreads.toInt info.begin_ info.end_ foo = some s₀ ∧
      IntegrateRun (threadValue step) w m info.nThreads.toInt s₀ es s ∧
      s.pc = .returned ∧ s.error = .success ∧ s.result = some r

/-- One machine, or a worker: the same value wherever it is computed. -/
theorem ComputedBy.eq {info : WorkerInfo} {n : Nat} {r : ℚ} (hn : info.nThreads.toInt = n)
    (hpos : 1 ≤ n) (h : ComputedBy step foo info r) :
    r = sliceSum step foo info.begin_ info.end_ n := by
  obtain ⟨w, m, s₀, es, s, hs₀, hr, -, -, hres⟩ := h
  rw [hn] at hs₀ hr
  obtain ⟨s₁, hs₁, hall, -⟩ := IntegrateRun.computes w m hpos step info.begin_ info.end_ foo
  obtain rfl : s₀ = s₁ := Option.some.inj (hs₀.symm.trans hs₁)
  exact (hall es s hr).2.result r hres

/-- Where no call fails `Integrate` comes to an answer. -/
theorem exists_computedBy (step : ℚ) (foo : ℚ → ℚ) {info : WorkerInfo} {n : Nat}
    (hn : info.nThreads.toInt = n) (hpos : 1 ≤ n) :
    ComputedBy step foo info (sliceSum step foo info.begin_ info.end_ n) := by
  obtain ⟨s₀, hs₀, hall, es, s, hr, hend⟩ :=
    IntegrateRun.computes allCalls fourCpus hpos step info.begin_ info.end_ foo
  have hcomp := (hall es s hr).2
  have herror := hcomp.noFailure
    ⟨⟨rfl, rfl, rfl, rfl, fun _ _ => rfl, rfl⟩, fun _ _ => rfl, fun _ _ => rfl⟩
  refine ⟨allCalls, fourCpus, s₀, es, s, ?_⟩
  rw [hn]
  exact ⟨hs₀, hr, hend, herror, (hcomp.error hend).mp herror⟩

/-! ## The sum over the workers -/

theorem cutAt_succ {w b e : ℚ} {m q r i : Nat} (hi : i < m)
    (he : e = b + ((m - 1) * q + r : Nat) * w) :
    cutAt b e w m q (i + 1) = cutAt b e w m q i + shareOf m q r i * w := by
  unfold cutAt shareOf
  rw [if_pos hi]
  by_cases h : i + 1 < m
  · rw [if_pos h, if_pos h]
    push_cast
    ring
  · obtain rfl : m = i + 1 := by omega
    rw [if_neg h, if_neg h, he, Nat.add_sub_cancel]
    push_cast
    ring

/-- The slices of the workers, one worker after the other, are those of the whole interval. -/
theorem flatten_equalSlices {w b e : ℚ} {m q r : Nat} (hm : 1 ≤ m)
    (he : e = b + ((m - 1) * q + r : Nat) * w) :
    ((List.range m).map fun i =>
      Lib.equalSlices w (cutAt b e w m q i) (shareOf m q r i)).flatten =
        Lib.equalSlices w b ((m - 1) * q + r) := by
  set parts := (List.range m).map fun i =>
    Lib.equalSlices w (cutAt b e w m q i) (shareOf m q r i) with hparts
  have htiles := Lib.Tiles.flatten (w := w) (cutAt b e w m q) parts 0 fun i hi => by
    have him : i < m := by simpa [hparts] using hi
    have h := Lib.tiles_equalSlices w (cutAt b e w m q i) (shareOf m q r i)
    rw [Nat.zero_add, cutAt_succ him he]
    simpa [hparts] using h
  have hlength : parts.flatten.length = (m - 1) * q + r := by
    rw [List.length_flatten, hparts, List.map_map, ← sum_shareOf hm]
    refine congrArg List.sum (List.map_congr_left fun i _ => ?_)
    simp [Lib.equalSlices]
  have hstart : cutAt b e w m q 0 = b := by simp [cutAt, show 0 < m from hm]
  have heq := htiles.eq_equalSlices
  rwa [hlength, hstart] at heq

/-- What the workers compute adds up to what one machine computes. -/
theorem sum_sliceSum {w b e : ℚ} {m q r : Nat} (hm : 1 ≤ m) (hq : 1 ≤ q) (hr : 1 ≤ r)
    (he : e = b + ((m - 1) * q + r : Nat) * w) :
    ((List.range m).map fun i => sliceSum step foo (cutAt b e w m q i)
      (cutAt b e w m q (i + 1)) (shareOf m q r i)).sum =
        sliceSum step foo b e ((m - 1) * q + r) := by
  have hwidth : ∀ {n : Nat} {x y : ℚ}, 1 ≤ n → y = x + n * w → (y - x) / n = w := by
    intro n x y hn hy
    have hne : (n : ℚ) ≠ 0 := by exact_mod_cast Nat.one_le_iff_ne_zero.mp hn
    rw [hy]
    field_simp
    ring
  have hwhole : (e - b) / ((m - 1) * q + r : Nat) = w := hwidth (by omega) he
  rw [sliceSum, hwhole, ← flatten_equalSlices hm he, List.map_flatten, List.sum_flatten,
    List.map_map, List.map_map]
  refine congrArg List.sum (List.map_congr_left fun i hi => ?_)
  have hshare : 1 ≤ shareOf m q r i := by
    unfold shareOf
    split <;> assumption
  rw [sliceSum, hwidth hshare (cutAt_succ (List.mem_range.mp hi) he)]
  rfl

/-! ## The server

A reply is only known to be what its worker has computed, and a worker's computation is a run of
`Integrate` of its own; `ComputedBy` says so without saying which run. -/

section Server

variable {nCpus nMachines nThreads : BitVec 32} {tasks : TasksForWorkers} {o : Outcomes}
  {w : GetResultCalls} {integrate : WorkerInfo → ℚ}

/-- The server adds up the whole, whoever computes the tasks of `divide_work`. -/
theorem totalOf_divideWork (hcpus : nCpus ≠ 0) (hm : 1 ≤ nMachines.toNat)
    (hn : 1 ≤ nThreads.toNat) (hn' : nThreads.toNat < 2 ^ 31)
    (htasks : divideWork nCpus ⟨true, true⟩ nMachines nThreads begin_ end_ =
      some (some tasks, .success))
    (hworker : ∀ t ∈ tasks.task, ComputedBy step foo t.wInfo (integrate t.wInfo)) :
    totalOf integrate tasks.task = sliceSum step foo begin_ end_ nThreads.toNat := by
  obtain ⟨m, hmin⟩ : ∃ m, m = min nMachines.toNat nThreads.toNat := ⟨_, rfl⟩
  obtain ⟨q, hq⟩ : ∃ q, q = nThreads.toNat / m := ⟨_, rfl⟩
  obtain ⟨r, hr⟩ : ∃ r, r = nThreads.toNat - (m - 1) * q := ⟨_, rfl⟩
  set width : ℚ := (end_ - begin_) / (nThreads.toNat : ℚ) with hwidth
  have hm1 : 1 ≤ m := hmin ▸ Nat.le_min.mpr ⟨hm, hn⟩
  have hmn : m ≤ nThreads.toNat := hmin ▸ Nat.min_le_right _ _
  have hq1 : 1 ≤ q := hq ▸ Nat.div_pos hmn hm1
  have hqn : q ≤ nThreads.toNat := hq ▸ Nat.div_le_self _ _
  have hmq : m * q ≤ nThreads.toNat := hq ▸ Nat.mul_div_le _ _
  have hsplit : m * q = (m - 1) * q + q := by
    rw [← Nat.succ_mul, Nat.succ_eq_add_one, Nat.sub_add_cancel hm1]
  have hsum : (m - 1) * q + r = nThreads.toNat := by omega
  have hr1 : 1 ≤ r := by omega
  have hend : end_ = begin_ + (((m - 1) * q + r : Nat) : ℚ) * width := by
    have hne : (nThreads.toNat : ℚ) ≠ 0 := by exact_mod_cast Nat.ne_of_gt hn
    rw [hsum, hwidth]
    field_simp
    ring
  rw [divideWork_eq hcpus hm hn hn' hmin hq, ← hr, ← hwidth, Option.some.injEq, Prod.mk.injEq,
    Option.some.injEq] at htasks
  obtain ⟨rfl, -⟩ := htasks
  rw [totalOf, ← List.sum_eq_foldl, List.map_map, ← hsum, ← sum_sliceSum hm1 hq1 hr1 hend]
  refine congrArg List.sum (List.map_congr_left fun i hi => ?_)
  have him := List.mem_range.mp hi
  have hle : shareOf m q r i ≤ nThreads.toNat := by
    unfold shareOf
    split <;> omega
  have hshare : 1 ≤ shareOf m q r i := by
    unfold shareOf
    split <;> assumption
  have hto : (BitVec.ofNat 32 (shareOf m q r i)).toInt = shareOf m q r i := by
    rw [BitVec.toInt_eq_toNat_of_lt (by rw [toNat_ofNat_of_le hle]; omega), toNat_ofNat_of_le hle]
  have hcomp := hworker _ (List.mem_map_of_mem hi)
  rw [taskInfo_wInfo _ _ _ him] at hcomp
  rw [Function.comp_apply, taskInfo_wInfo _ _ _ him]
  exact hcomp.eq hto hshare

/-- Connecting a task does not change it. -/
theorem totalOf_connected (accept : Nat → Fd) (j k : Nat) (task : List HandlerInfo) :
    totalOf integrate (connected accept j k task) = totalOf integrate task := by
  have hmap : (connected accept j k task).map (fun t => integrate t.wInfo) =
      task.map fun t => integrate t.wInfo := by
    refine List.ext_getElem? fun i => ?_
    rw [connected, List.getElem?_map, List.getElem?_mapIdx, List.getElem?_map, Option.map_map]
    refine congrArg₂ Option.map (funext fun t => ?_) rfl
    rw [Function.comp_apply]
    split <;> rfl
  rw [totalOf, hmap, totalOf]

/-- Whatever is stored in `*res` is the total. -/
theorem CollectInv.stored {s : GetResultState ℚ} (hs : CollectInv integrate tasks s) :
    ∀ r ∈ s.res, r = totalOf integrate tasks.task := by
  have hatPc := hs.atPc
  unfold GetResultState.AtPc at hatPc
  have hnone : s.res = none → ∀ r ∈ s.res, r = totalOf integrate tasks.task := by
    intro hres r hr
    rw [hres] at hr
    cases hr
  cases hpc : s.pc with
  | creating i =>
    rw [hpc] at hatPc
    exact hnone hatPc.2.2.2.2.2
  | joining j =>
    rw [hpc] at hatPc
    exact hnone hatPc.2.2.2.2.2.2
  | cancelling j =>
    rw [hpc] at hatPc
    exact hnone hatPc.2.2
  | returned =>
    rw [hpc] at hatPc
    rcases hatPc with ⟨-, -, hres⟩ | ⟨-, -, hres⟩ | ⟨-, hres⟩
    · intro r hr
      rw [hres] at hr
      exact (Option.some.inj hr).symm
    · exact hnone hres
    · exact hnone hres
  | dead =>
    rw [hpc] at hatPc
    exact hatPc.elim

/-- **The distributed integral is the local one.** However many machines there are and in whatever
    order they connect, compute and answer: in every run in which no step ends the server, all
    that `get_result` ever stores is what `Integrate` computes for the whole interval on any one
    machine, the sum over `n_threads` equal slices; and it is stored when every worker has
    replied and every reply has arrived. -/
theorem distributed_eq_local (hcpus : nCpus ≠ 0) (hm : 1 ≤ nMachines.toNat)
    (hn : 1 ≤ nThreads.toNat) (hn' : nThreads.toNat < 2 ^ 31)
    (htasks : divideWork nCpus ⟨true, true⟩ nMachines nThreads begin_ end_ =
      some (some tasks, .success))
    (hk : o.Kernel) (hc : o.Connects tasks.task.length)
    (hfd : ∀ k < tasks.task.length, (o.accept k).toInt < FD_SETSIZE)
    (hcreate : ∀ i, w.create i = true) (hjoin : ∀ j, w.join j = true)
    (hworker : ∀ t ∈ tasks.task, ComputedBy step foo t.wInfo (integrate t.wInfo)) :
    (∀ r, ComputedBy step foo ⟨begin_, end_, nThreads⟩ r →
      r = sliceSum step foo begin_ end_ nThreads.toNat) ∧
    ∃ tasks' log, getTcpConnections o tasks = some (.success, tasks', log) ∧
      ∀ es s, GetResultRun integrate w tasks' (getResultStart w) es s →
        (∀ r ∈ s.res, r = sliceSum step foo begin_ end_ nThreads.toNat) ∧
        (s.pc = .returned → (∀ t ∈ tasks'.task, (s.links t.socket).Replied) →
          (∀ h ∈ s.threads, ¬h.Failed) →
            s.error = .success ∧
              s.res = some (sliceSum step foo begin_ end_ nThreads.toNat)) := by
  have htotal := totalOf_divideWork hcpus hm hn hn' htasks hworker
  have hint : nThreads.toInt = nThreads.toNat := BitVec.toInt_eq_toNat_of_lt (by omega)
  obtain ⟨ready, hdivide, ht⟩ :=
    @divideWork_ready nCpus nMachines nThreads begin_ end_ hcpus hm hn hn'
  obtain rfl : ready = tasks := by
    rw [hdivide, Option.some.injEq, Prod.mk.injEq, Option.some.injEq] at htasks
    exact htasks.1
  refine ⟨fun r hr => hr.eq hint hn, _, _, getTcpConnections_success ht hc, fun es s hr => ?_⟩
  have hcol := collectable_of_connects ht hk hc hfd hcreate hjoin
  have hinv := (CollectInv.run hcol hr).1
  have hstored := hinv.stored
  rw [totalOf_connected, htotal] at hstored
  refine ⟨hstored, fun hpc hreplied hfailed => ?_⟩
  obtain ⟨herror, hres⟩ := hinv.success hcol hpc hreplied hfailed
  rw [totalOf_connected, htotal] at hres
  exact ⟨herror, hres⟩

end Server

/-- Three threads and one worker, whose machine has four processors. -/
theorem distributed_eq_local_three :
    (∀ r, ComputedBy 1 id ⟨0, 300, 3⟩ r → r = sliceSum 1 id 0 300 3) ∧
    ∃ tasks' log, getTcpConnections oneWorker oneTask = some (.success, tasks', log) ∧
      ∀ es s, GetResultRun (fun x => sliceSum 1 id x.begin_ x.end_ x.nThreads.toInt.toNat)
        noFailure tasks' (getResultStart noFailure) es s →
        (∀ r ∈ s.res, r = sliceSum 1 id 0 300 3) ∧
        (s.pc = .returned → (∀ t ∈ tasks'.task, (s.links t.socket).Replied) →
          (∀ h ∈ s.threads, ¬h.Failed) →
            s.error = .success ∧ s.res = some (sliceSum 1 id 0 300 3)) := by
  have hdivide : divideWork 4 ⟨true, true⟩ 1 3 0 300 = some (some oneTask, .success) := by
    decide +kernel
  refine @distributed_eq_local 1 0 300 id 4 1 3 oneTask oneWorker noFailure _ (by decide)
    (by decide) (by decide) (by decide) hdivide oneWorker_kernel oneWorker_connects
    (fun k hk => by rw [oneWorker_accept hk]; decide) (fun _ => rfl) (fun _ => rfl)
    fun t ht => ?_
  obtain rfl : t = ⟨⟨0, 300, 3⟩, 0⟩ := List.mem_singleton.mp ht
  exact exists_computedBy 1 id (show (3 : BitVec 32).toInt = (3 : Nat) by decide) (by decide)

end CompTech.Network
