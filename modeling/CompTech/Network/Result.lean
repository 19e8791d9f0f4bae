import CompTech.Network.Lifetime
import CompTech.Network.Trapezoid

/-!
# What `Integrate` computes

The threads of `Integrate` run in any order between its own steps. A record is written by its
thread only, and read by the joining loop once the thread has ended (`Written`), so the parts
come together in the order of the records whatever the order in which the threads ran: `Sums` is
the invariant, `integrate_result` the value, with `CalcIntegral` for the threads.

The surplus threads compute the first slice once more and are not added. A store of theirs after
`free` is undefined; it comes after `*result` is written.

`Integrate` and the threads move in any order, but what a record holds depends only on how far its
own thread is (`afterThread`), and so the block is a function of the list of threads. That is
`Written`, and it is what makes the result independent of the order.

The two halves come together in `integrate_result`: the machine of `Lifetime` says which states a
run can reach, and `Sums` says what is in `res` in each of them. What a thread computes is a
parameter of the first half (`integral`), so that nothing there depends on the rectangles; the
second half puts `CalcIntegral` in for it, which returns because the step is positive.

The measure `IntegrateState.left` falls with every step of `Integrate` or of a thread, so a schedule
cannot go on for ever, and its value at the start is the bound.
-/

namespace CompTech.Network

variable {φ : Type}

/-! ## Records and threads

The invariant over the runs of `Integrate` and its threads, in any order, with the sums and the
number of steps that are left.

That a record can be read as soon as its thread is joined needs no more than that a thread which has
been joined had ended. The records of the threads that are not wanted are in the block as well, and
nothing is said of when they are written; the sum does not look at them. -/

/-- What a thread has made of its record. -/
def afterThread (integral : ThreadInfo φ → ℚ) (thread : Option Thread) (t : ThreadInfo φ) :
    ThreadInfo φ :=
  match thread with
  | some .ended | some .joined => { t with res := integral t }
  | some .running | none => t

/-- The block: every record is as it was filled, but for the `res` of the threads that have
    ended. -/
def Written (integral : ThreadInfo φ → ℚ) (infos : List (ThreadInfo φ)) (s : IntegrateState φ) :
    Prop :=
  s.infosp = some (infos.mapIdx fun i t => afterThread integral s.threads[i]? t)

/-- The parts of the first `k` records, added up from zero. -/
def partsOf (integral : ThreadInfo φ → ℚ) (infos : List (ThreadInfo φ)) (k : Nat) : ℚ :=
  ((infos.take k).map integral).sum

/-- What `Integrate` has made of its threads, where it is; `n` parts are wanted from `c` threads. At
    the exit there are only the two outcomes, and `*result` tells them apart: it is written in front
    of the freeing, and only when nothing has failed. -/
def IntegrateState.Sums (integral : ThreadInfo φ → ℚ) (infos : List (ThreadInfo φ)) (n c : Nat)
    (s : IntegrateState φ) : Prop :=
  match s.pc with
  | .creating i => i ≤ c ∧ s.threads.length = i ∧ Thread.joined ∉ s.threads ∧
      Written integral infos s ∧ s.res = 0 ∧ s.error = .success ∧ s.result = none
  | .joining i => i ≤ n ∧ s.threads.length = c ∧ (∀ j, i ≤ j → s.threads[j]? ≠ some .joined) ∧
      Written integral infos s ∧ s.res = partsOf integral infos i ∧ s.error = .success ∧
      s.result = none
  | .freeing | .returned =>
      s.error = .success ∧ s.result = some (partsOf integral infos n) ∨
        s.error ≠ .success ∧ s.result = none

/-- The steps that are left: two for a thread to come, one for a thread that runs. -/
def IntegrateState.left (n c : Nat) (s : IntegrateState φ) : Nat :=
  s.threads.count .running + match s.pc with
  | .creating i => 2 * (c - i) + n + 3
  | .joining i => n - i + 2
  | .freeing => 1
  | .returned => 0

section Steps

variable {integral : ThreadInfo φ → ℚ} {infos : List (ThreadInfo φ)} {w : Calls} {n c : Nat}
  {s t : IntegrateState φ}

/-- Threads that are at the same place have done the same to their records. -/
theorem Written.congr (hs : Written integral infos s) (hblock : t.infosp = s.infosp)
    (hthreads : ∀ i, i < infos.length →
      ∀ x, afterThread integral t.threads[i]? x = afterThread integral s.threads[i]? x) :
    Written integral infos t := by
  unfold Written at hs ⊢
  rw [hblock, hs]
  refine congrArg some (List.mapIdx_eq_mapIdx_iff.mpr fun i hi => ?_)
  exact (hthreads i hi _).symm

/-- The next thread is created. -/
theorem Written.push (hs : Written integral infos s) (hblock : t.infosp = s.infosp)
    (hthreads : t.threads = s.threads ++ [.running]) : Written integral infos t := by
  refine hs.congr hblock fun k hk x => ?_
  rw [hthreads]
  rcases Nat.lt_trichotomy k s.threads.length with hlt | rfl | hgt
  · rw [List.getElem?_append_left hlt]
  · rw [List.getElem?_concat_length, List.getElem?_eq_none (Nat.le_refl _)]
    rfl
  · rw [List.getElem?_eq_none (by simpa using hgt), List.getElem?_eq_none (by omega)]

/-- A thread that has ended is joined. -/
theorem Written.join {i : Nat} (hs : Written integral infos s) (hblock : t.infosp = s.infosp)
    (hi : s.threads[i]? = some .ended) (hthreads : t.threads = s.threads.set i .joined) :
    Written integral infos t := by
  refine hs.congr hblock fun k hk x => ?_
  rw [hthreads]
  by_cases hk : i = k
  · subst hk
    rw [List.getElem?_set_self (List.getElem?_eq_some_iff.mp hi).1, hi]
    rfl
  · rw [List.getElem?_set_ne hk]

/-- A thread runs to its end: it has found its record as it was filled. -/
theorem Written.thread {i : Nat} (hs : Written integral infos s)
    (hi : s.threads[i]? = some .running) :
    Written integral infos { s with
      threads := s.threads.set i .ended
      infosp := s.infosp.map fun l => l.modify i fun x => { x with res := integral x } } := by
  have hin := (List.getElem?_eq_some_iff.mp hi).1
  unfold Written at hs ⊢
  rw [hs, Option.map_some]
  refine congrArg some (List.ext_getElem? fun k => ?_)
  rw [List.getElem?_modify, List.getElem?_mapIdx, List.getElem?_mapIdx]
  by_cases hk : i = k
  · subst hk
    simp only [if_true, List.getElem?_set_self hin, hi, Option.map_eq_map, Option.map_map]
    rfl
  · simp only [if_neg hk, List.getElem?_set_ne hk, Option.map_eq_map, Option.map_map]
    rfl

/-- The record that the joining loop reads. -/
theorem Written.record {i : Nat} {l : List (ThreadInfo φ)} {info : ThreadInfo φ}
    (hs : Written integral infos s) (hi : s.threads[i]? = some .ended) (hl : s.infosp = some l)
    (hinfo : l[i]? = some info) : ∃ x, infos[i]? = some x ∧ info.res = integral x := by
  unfold Written at hs
  rw [hl, Option.some.injEq] at hs
  rw [hs, List.getElem?_mapIdx, hi] at hinfo
  obtain ⟨x, hx, rfl⟩ := Option.map_eq_some_iff.mp hinfo
  exact ⟨x, hx, rfl⟩

theorem partsOf_succ {k : Nat} {x : ThreadInfo φ} (hx : infos[k]? = some x) :
    partsOf integral infos (k + 1) = partsOf integral infos k + integral x := by
  rw [partsOf, List.take_add_one, hx, List.map_append, List.sum_append, partsOf]
  simp

theorem count_set_running {threads : List Thread} {i : Nat} {x : Thread}
    (hi : threads[i]? = some x) (hx : x ≠ .running) :
    (threads.set i .joined).count .running = threads.count .running := by
  obtain ⟨hin, rfl⟩ := List.getElem?_eq_some_iff.mp hi
  rw [List.count_set hin]
  simp [hx]

/-- The joining loop adds the part of a thread that has ended. -/
theorem IntegrateState.Sums.joins {i : Nat} {l : List (ThreadInfo φ)} {info : ThreadInfo φ}
    (hs : s.Sums integral infos n c) (hpc : s.pc = .joining i) (hlt : i < n)
    (hended : s.threads[i]? = some .ended) (hl : s.infosp = some l)
    (hinfo : l[i]? = some info) :
    IntegrateState.Sums integral infos n c { s with
      pc := .joining (i + 1), threads := s.threads.set i .joined, res := s.res + info.res } := by
  unfold IntegrateState.Sums at hs ⊢
  rw [hpc] at hs
  obtain ⟨-, hlen, hjoined, hwritten, hres, hrest⟩ := hs
  refine ⟨hlt, (List.length_set ..).trans hlen, fun j hj => ?_, hwritten.join rfl hended rfl, ?_,
    hrest⟩
  · show (s.threads.set i .joined)[j]? ≠ _
    rw [List.getElem?_set_ne (by omega)]
    exact hjoined j (by omega)
  · obtain ⟨x, hx, hpart⟩ := hwritten.record hended hl hinfo
    rw [partsOf_succ hx, ← hpart, ← hres]

/-- The steps of `Integrate`; the calls that fail lead to the exit. The cases follow the program
    counter. A call that fails sets the error and goes to the freeing, so what is left is less at
    once. -/
theorem IntegrateState.Sums.main (hn : n ≤ c) (hs : s.Sums integral infos n c)
    (ht : integrateMain w n c s = some t) :
    t.Sums integral infos n c ∧ t.left n c < s.left n c := by
  have hs' := hs
  unfold IntegrateState.Sums at hs'
  unfold IntegrateState.left
  cases hpc : s.pc with
  | creating i =>
    rw [hpc] at hs'
    obtain ⟨hi, hlen, hjoined, hwritten, hres, herr, hresult⟩ := hs'
    simp only [integrateMain, hpc] at ht
    split at ht
    · rename_i hlt
      split at ht
      · cases ht
        refine ⟨⟨by omega, by simp [hlen], by simp [hjoined], hwritten.push rfl rfl, hres, herr,
          hresult⟩, ?_⟩
        simp only [List.count_append, List.count_singleton_self]
        omega
      · cases ht
        exact ⟨.inr ⟨Error.noConfusion, hresult⟩, by dsimp only; omega⟩
    · cases ht
      refine ⟨⟨Nat.zero_le _, by dsimp only; omega, fun j _ hj => hjoined (List.mem_of_getElem? hj),
        hwritten, ?_, herr, hresult⟩, by dsimp only; omega⟩
      show s.res = _
      rw [hres, partsOf, List.take_zero]
      rfl
  | joining i =>
    rw [hpc] at hs'
    obtain ⟨hi, hlen, hjoined, hwritten, hres, herr, hresult⟩ := hs'
    simp only [integrateMain, hpc] at ht
    split at ht
    · rename_i hlt
      split at ht
      · split at ht
        · rename_i hended
          obtain ⟨l, hl, ht⟩ := Option.bind_eq_some_iff.mp ht
          obtain ⟨info, hinfo, ht⟩ := Option.bind_eq_some_iff.mp ht
          cases ht
          refine ⟨hs.joins hpc (by omega) hended hl hinfo, ?_⟩
          dsimp only
          rw [count_set_running hended (by decide)]
          omega
        · cases ht
      · cases ht
        exact ⟨.inr ⟨Error.noConfusion, hresult⟩, by dsimp only; omega⟩
    · rename_i hge
      cases ht
      obtain rfl : i = n := by omega
      exact ⟨.inl ⟨herr, congrArg some hres⟩, by dsimp only; omega⟩
  | freeing =>
    rw [hpc] at hs'
    simp only [integrateMain, hpc] at ht
    cases ht
    exact ⟨hs', by dsimp only; omega⟩
  | returned =>
    simp only [integrateMain, hpc] at ht
    cases ht

/-- A thread runs to its end, wherever `Integrate` is. -/
theorem IntegrateState.Sums.thread {i : Nat} (hs : s.Sums integral infos n c)
    (ht : startRoutine integral s i = some t) :
    t.Sums integral infos n c ∧ t.left n c < s.left n c := by
  unfold startRoutine at ht
  split at ht
  · rename_i hrun
    cases ht
    obtain ⟨hin, hi⟩ := List.getElem?_eq_some_iff.mp hrun
    have hcount : (s.threads.set i .ended).count .running < s.threads.count .running := by
      have hpos : 0 < s.threads.count .running :=
        List.count_pos_iff.mpr (List.mem_of_getElem? hrun)
      rw [List.count_set hin, hi]
      simp only [BEq.rfl, if_true]
      have hne : (Thread.ended == Thread.running) = false := rfl
      rw [hne]
      simp only [Bool.false_eq_true, if_false]
      omega
    refine ⟨?_, Nat.add_lt_add_right hcount _⟩
    have hset : ∀ j : Nat, s.threads[j]? ≠ some .joined →
        (s.threads.set i .ended)[j]? ≠ some .joined := by
      intro j hj
      by_cases hij : i = j
      · subst hij
        rw [List.getElem?_set_self hin]
        decide
      · rwa [List.getElem?_set_ne hij]
    unfold IntegrateState.Sums at hs ⊢
    dsimp only
    cases hpc : s.pc with
    | creating k =>
      rw [hpc] at hs
      obtain ⟨hk, hlen, hjoined, hwritten, hrest⟩ := hs
      refine ⟨hk, (List.length_set ..).trans hlen, fun hmem => ?_, hwritten.thread hrun, hrest⟩
      obtain ⟨j, hj⟩ := List.mem_iff_getElem?.mp hmem
      exact hset j (fun h => hjoined (List.mem_of_getElem? h)) hj
    | joining k =>
      rw [hpc] at hs
      obtain ⟨hk, hlen, hjoined, hwritten, hrest⟩ := hs
      exact ⟨hk, (List.length_set ..).trans hlen, fun j hj => hset j (hjoined j hj),
        hwritten.thread hrun, hrest⟩
    | freeing | returned =>
      rw [hpc] at hs
      exact hs
  · cases ht

theorem IntegrateState.Sums.step {e : IntegrateAct} (hn : n ≤ c) (hs : s.Sums integral infos n c)
    (ht : integrateStep integral w n c s e = some t) :
    t.Sums integral infos n c ∧ t.left n c < s.left n c := by
  cases e with
  | main => exact hs.main hn ht
  | thread i => exact hs.thread ht

/-- Until `Integrate` has returned it can go on, or the thread can that it waits for. The only place
    at which `Integrate` waits is the `pthread_join` of a thread that still runs, and that thread
    can always be run to its end. -/
theorem IntegrateState.Sums.goesOn (hn : n ≤ c) (hc : infos.length = c)
    (hs : s.Sums integral infos n c) (hpc : s.pc ≠ .returned) :
    ∃ e t, integrateStep integral w n c s e = some t := by
  have hmain : ∀ t, integrateMain w n c s = some t →
      ∃ e t, integrateStep integral w n c s e = some t := fun t ht => ⟨.main, t, ht⟩
  unfold IntegrateState.Sums at hs
  cases hs' : s.pc with
  | creating i =>
    by_cases hlt : (i : Int) < c
    · by_cases hcreate : w.create i = true
      · exact hmain _ (by simp only [integrateMain, hs', if_pos hlt, if_pos hcreate]; rfl)
      · exact hmain _ (by simp only [integrateMain, hs', if_pos hlt, if_neg hcreate]; rfl)
    · exact hmain _ (by simp only [integrateMain, hs', if_neg hlt]; rfl)
  | joining i =>
    rw [hs'] at hs
    obtain ⟨hi, hlen, hjoined, hwritten, -⟩ := hs
    by_cases hlt : (i : Int) < n
    · by_cases hjoin : w.join i = true
      · have hget := List.getElem?_eq_getElem (show i < s.threads.length by omega)
        cases hthread : s.threads[i] with
        | running =>
          rw [hthread] at hget
          exact ⟨.thread i, _, if_pos hget⟩
        | ended =>
          rw [hthread] at hget
          obtain ⟨l, hl, hlen'⟩ : ∃ l, s.infosp = some l ∧ l.length = infos.length :=
            ⟨_, hwritten, List.length_mapIdx⟩
          have hinfo := List.getElem?_eq_getElem (show i < l.length by omega)
          obtain ⟨t, ht⟩ : ∃ t, integrateMain w n c s = some t := by
            simp only [integrateMain, hs', if_pos hlt, if_pos hjoin, if_pos hget, hl,
              Option.bind_eq_bind, Option.bind_some, hinfo]
            exact ⟨_, rfl⟩
          exact hmain t ht
        | joined =>
          rw [hthread] at hget
          exact absurd hget (hjoined i (Nat.le_refl i))
      · exact hmain _ (by simp only [integrateMain, hs', if_pos hlt, if_neg hjoin]; rfl)
    · exact hmain _ (by simp only [integrateMain, hs', if_neg hlt]; rfl)
  | freeing => exact hmain _ (by simp only [integrateMain, hs']; rfl)
  | returned => exact absurd hs' hpc

end Steps

/-! ## What a thread computes

A thread runs `CalcIntegral` on its record; the loop ends because the step is positive, and the
limits of a record may stand either way round.

`calcValue` is the sum in closed form: as many rectangles as it takes to reach the upper limit, with
the smaller of the two limits below. It is what the loop returns with enough fuel
(`calcIntegral_value`), so it is a fact about the code and no second definition of it. -/

/-- What `CalcIntegral` returns. -/
def calcValue (step : ℚ) (foo : ℚ → ℚ) (begin_ end_ : ℚ) : ℚ :=
  let lower := min begin_ end_
  areas step (node step lower foo) ⌈(max begin_ end_ - lower) / step⌉₊

theorem calcIntegral_value {step : ℚ} (hstep : 0 < step) (foo : ℚ → ℚ) (begin_ end_ : ℚ) :
    ∃ n, ∀ fuel, n < fuel →
      calcIntegral step fuel begin_ end_ foo = some (calcValue step foo begin_ end_) := by
  refine ⟨⌈(max begin_ end_ - min begin_ end_) / step⌉₊, fun fuel hfuel => ?_⟩
  rcases le_total begin_ end_ with hle | hle
  · rw [max_eq_right hle, min_eq_left hle] at hfuel
    rw [calcIntegral_eq hle (Lib.isLeast_ceil hstep) hfuel, calcValue, max_eq_right hle,
      min_eq_left hle]
  · rw [max_eq_left hle, min_eq_right hle] at hfuel
    rw [calcIntegral_swap, calcIntegral_eq hle (Lib.isLeast_ceil hstep) hfuel, calcValue,
      max_eq_left hle, min_eq_right hle]

/-- `start_routine` stores this in `res`. -/
def threadValue (step : ℚ) (t : ThreadInfo (ℚ → ℚ)) : ℚ := calcValue step t.foo t.begin_ t.end_

/-- The values of the `n` equal slices, added up. -/
def sliceSum (step : ℚ) (foo : ℚ → ℚ) (begin_ end_ : ℚ) (n : Nat) : ℚ :=
  ((Lib.equalSlices ((end_ - begin_) / n) begin_ n).map fun s => calcValue step foo s.1 s.2).sum

/-! ## What Integrate computes -/

section Integrate

variable {step : ℚ} {foo : ℚ → ℚ} {begin_ end_ : ℚ} {m : Machine (ℚ → ℚ)} {n : Nat}

/-- The records that `Integrate` hands to its threads, in closed form. -/
theorem integrateInfos_slices (hn : 1 ≤ n) : ∃ infos,
    integrateInfos m n begin_ end_ foo = some (0, some infos) ∧
      (infos.length : Int) = nThreadCreate m n ∧
      partsOf (threadValue step) infos n = sliceSum step foo begin_ end_ n := by
  have hcreate := nThreadCreate_eq m n
  set block := buildThreadInfo m (nThreadCreate m n) with hblock
  have hlen : (block.length : Int) = nThreadCreate m n := by
    rw [hblock, buildThreadInfo, List.length_map, List.length_range]
    omega
  set init : ThreadInfo (ℚ → ℚ) := { begin_ := begin_, end_ := end_, res := 0, foo := foo }
  have hfill := fillThreadInfo_eq block init hn (by omega)
  rw [hlen] at hfill
  have hslices := resultSlices_eq block init hn (by omega)
    (show init.end_ - init.begin_ = n * ((end_ - begin_) / n) by
      rw [mul_div_cancel₀]
      exact_mod_cast Nat.pos_iff_ne_zero.mp hn)
  refine ⟨_, hfill, (congrArg Nat.cast List.length_mapIdx).trans hlen, ?_⟩
  rw [partsOf, sliceSum, ← hslices, resultSlices, List.map_map]
  refine congrArg List.sum (List.map_congr_left fun t ht => ?_)
  obtain ⟨i, hi⟩ := List.mem_iff_getElem?.mp (List.mem_of_mem_take ht)
  rw [List.getElem?_mapIdx] at hi
  obtain ⟨x, -, rfl⟩ := Option.map_eq_some_iff.mp hi
  have hfoo : (sliceInfo init n i x).foo = foo := by
    unfold sliceInfo
    dsimp only
    split
    · rfl
    · split <;> rfl
  rw [threadValue, hfoo]
  rfl

/-- The start of the machine is in order: an exit in front of the creating loop has an error. -/
theorem integrateStart_sums {integral : ThreadInfo (ℚ → ℚ) → ℚ} (w : Calls)
    {infos : List (ThreadInfo (ℚ → ℚ))} {c : Nat} (hn : 1 ≤ n)
    (hinfos : integrateInfos m n begin_ end_ foo = some (0, some infos)) :
    ∃ s, integrateStart w m n begin_ end_ foo = some s ∧ s.Sums integral infos n c ∧
      s.left n c ≤ 2 * c + n + 3 := by
  have hexit : ∀ (pc : IntegratePc) (error : Error) (infosp : Option (List _)),
      pc = .freeing ∨ pc = .returned → error ≠ .success →
      (⟨pc, error, [], infosp, 0, none⟩ : IntegrateState (ℚ → ℚ)).Sums integral infos n c ∧
        (⟨pc, error, [], infosp, 0, none⟩ : IntegrateState (ℚ → ℚ)).left n c ≤ 2 * c + n + 3 := by
    rintro pc error infosp (rfl | rfl) herror
    · exact ⟨.inr ⟨herror, rfl⟩, by simp [IntegrateState.left]⟩
    · exact ⟨.inr ⟨herror, rfl⟩, by simp [IntegrateState.left]⟩
  unfold integrateStart
  rw [if_neg (by omega)]
  split
  · exact ⟨_, rfl, hexit _ _ _ (.inr rfl) (by decide)⟩
  split
  · exact ⟨_, rfl, hexit _ _ _ (.inr rfl) (by decide)⟩
  split
  · exact ⟨_, rfl, hexit _ _ _ (.inr rfl) (by decide)⟩
  rw [hinfos, Option.bind_eq_bind, Option.bind_some]
  dsimp only
  rw [if_neg (by simp)]
  split
  · exact ⟨_, rfl, hexit _ _ _ (.inl rfl) (by decide)⟩
  split
  · exact ⟨_, rfl, hexit _ _ _ (.inl rfl) (by decide)⟩
  split
  · exact ⟨_, rfl, hexit _ _ _ (.inl rfl) (by decide)⟩
  · refine ⟨_, rfl, ⟨Nat.zero_le _, rfl, List.not_mem_nil, ?_, rfl, rfl, rfl⟩, ?_⟩
    · refine congrArg some (List.ext_getElem? fun i => ?_)
      rw [List.getElem?_mapIdx]
      simp [afterThread]
    · simp [IntegrateState.left]

/-- No call fails. -/
structure Calls.Succeed (w : Calls) (c : Int) : Prop where
  enters : w.Enters c
  create : ∀ i : Nat, (i : Int) < c → w.create i = true
  join : ∀ i : Nat, (i : Int) < c → w.join i = true

theorem integrateStart_noError {w : Calls} {s : IntegrateState (ℚ → ℚ)} (hn : 1 ≤ n)
    (hw : w.Succeed (nThreadCreate m n))
    (hs : integrateStart w m n begin_ end_ foo = some s) : s.error = .success := by
  obtain ⟨⟨hcpu, hthreads, hinfosp, hattrs, hinit, hset⟩, -, -⟩ := hw
  obtain ⟨infos, hinfos, -, -⟩ :=
    @integrateInfos_slices 1 foo begin_ end_ m n hn
  have hany : (List.range (nThreadCreate m n).toNat).any (!w.attrInit ·) = false := by
    rw [List.any_eq_false]
    intro i hi
    have hlt := List.mem_range.mp hi
    rw [hinit i (by omega)]
    decide
  unfold integrateStart at hs
  rw [if_neg (by omega), if_neg (by simp [hcpu]), if_neg (by simp [hthreads]),
    if_neg (by simp [hinfosp]), hinfos, Option.bind_eq_bind, Option.bind_some] at hs
  dsimp only at hs
  rw [if_neg (by simp), if_neg (by simp [hattrs]), if_neg (by simp [hany]),
    if_neg (by simp [hset])] at hs
  cases hs
  rfl

theorem integrateStep_noError {integral : ThreadInfo (ℚ → ℚ) → ℚ} {w : Calls} {c : Nat}
    {s t : IntegrateState (ℚ → ℚ)} {e : IntegrateAct} (hnc : n ≤ c) (hw : w.Succeed c)
    (hs : s.error = .success) (ht : integrateStep integral w n c s e = some t) :
    t.error = .success := by
  cases e with
  | main =>
    simp only [integrateStep, integrateMain] at ht
    split at ht
    · split at ht
      · rename_i hlt
        rw [if_pos (hw.create _ hlt)] at ht
        cases ht
        exact hs
      · cases ht
        exact hs
    · split at ht
      · rename_i hlt
        rw [if_pos (hw.join _ (by omega))] at ht
        split at ht
        · obtain ⟨l, -, ht⟩ := Option.bind_eq_some_iff.mp ht
          obtain ⟨info, -, ht⟩ := Option.bind_eq_some_iff.mp ht
          cases ht
          exact hs
        · cases ht
      · cases ht
        exact hs
    · cases ht
      exact hs
    · cases ht
  | thread i =>
    simp only [integrateStep, startRoutine] at ht
    split at ht
    · cases ht
      exact hs
    · cases ht

/-- What `*result` may hold, and that the run goes on to the return. The fields are the parts of the
    theorem below, so that a run lemma can carry them all at once. -/
structure IntegrateState.Computes (integral : ThreadInfo (ℚ → ℚ) → ℚ) (w : Calls)
    (m : Machine (ℚ → ℚ)) (n : Nat) (total : ℚ) (s : IntegrateState (ℚ → ℚ)) : Prop where
  result : ∀ r ∈ s.result, r = total
  error : s.pc = .returned → (s.error = .success ↔ s.result = some total)
  noFailure : w.Succeed (nThreadCreate m n) → s.error = .success
  goesOn : s.pc ≠ .returned →
    ∃ e t, integrateStep integral w n (nThreadCreate m n) s e = some t

theorem IntegrateState.Sums.result {integral : ThreadInfo (ℚ → ℚ) → ℚ}
    {infos : List (ThreadInfo (ℚ → ℚ))} {c : Nat} {s : IntegrateState (ℚ → ℚ)}
    (hs : s.Sums integral infos n c) : (∀ r ∈ s.result, r = partsOf integral infos n) ∧
      (s.pc = .returned → (s.error = .success ↔ s.result = some (partsOf integral infos n))) := by
  unfold IntegrateState.Sums at hs
  cases hpc : s.pc with
  | creating i =>
    rw [hpc] at hs
    refine ⟨fun r hr => ?_, IntegratePc.noConfusion⟩
    rw [hs.2.2.2.2.2.2] at hr
    cases hr
  | joining i =>
    rw [hpc] at hs
    refine ⟨fun r hr => ?_, IntegratePc.noConfusion⟩
    rw [hs.2.2.2.2.2.2] at hr
    cases hr
  | freeing | returned =>
    rw [hpc] at hs
    rcases hs with ⟨herror, hresult⟩ | ⟨herror, hresult⟩
    · rw [hresult]
      exact ⟨fun r hr => (Option.some.inj hr).symm, fun _ => iff_of_true herror rfl⟩
    · rw [hresult]
      refine ⟨fun r hr => ?_, fun _ => iff_of_false herror fun h => ?_⟩
      · cases hr
      · cases h

/-- Every state of a run from the start of `Integrate`. The bound on the length of a run and the way
    to its end come from the measure, by the rules for runs of a machine with a measure. -/
theorem IntegrateRun.computes (w : Calls) (m : Machine (ℚ → ℚ)) (hn : 1 ≤ n)
    (step begin_ end_ : ℚ) (foo : ℚ → ℚ) :
    ∃ s₀, integrateStart w m n begin_ end_ foo = some s₀ ∧
      (∀ es s, IntegrateRun (threadValue step) w m n s₀ es s →
        es.length ≤ 2 * (nThreadCreate m n).toNat + n + 3 ∧
          s.Computes (threadValue step) w m n (sliceSum step foo begin_ end_ n)) ∧
      ∃ es s, IntegrateRun (threadValue step) w m n s₀ es s ∧ s.pc = .returned := by
  have hcreate := nThreadCreate_eq m n
  obtain ⟨infos, hinfos, hlen, hparts⟩ :=
    @integrateInfos_slices step foo begin_ end_ m n hn
  obtain ⟨c, hc⟩ : ∃ c : Nat, nThreadCreate m n = c := ⟨(nThreadCreate m n).toNat, by omega⟩
  have hnc : n ≤ c := by omega
  obtain ⟨s₀, hs₀, hsums, hleft⟩ :=
    @integrateStart_sums foo begin_ end_ m n (threadValue step) w infos c hn hinfos
  have hstep := fun (s : IntegrateState (ℚ → ℚ)) e t
      (hs : s.Sums (threadValue step) infos n c) (_ : Lib.Always s e)
      (ht : integrateStep (threadValue step) w n c s e = some t) => hs.step hnc ht
  have hgo : ∀ s : IntegrateState (ℚ → ℚ), s.Sums (threadValue step) infos n c →
      s.pc ≠ .returned → ∃ e t, integrateStep (threadValue step) w n c s e = some t :=
    fun s hs hpc => hs.goesOn hnc (by omega) hpc
  refine ⟨s₀, hs₀, fun es s hr => ?_, ?_⟩
  · unfold IntegrateRun at hr
    rw [hc] at hr
    have hs : s.Sums (threadValue step) infos n c :=
      hr.invariant hsums fun s e t hs hok ht => (hstep s e t hs hok ht).1
    have hbound := hr.length_le hsums hstep
    obtain ⟨hresult, herror⟩ := hs.result
    rw [hparts] at hresult herror
    refine ⟨by rw [hc]; exact hbound.trans hleft, hresult, herror, fun hw => ?_, fun hpc => ?_⟩
    · have hstart := integrateStart_noError hn hw hs₀
      rw [hc] at hw
      exact @Lib.Run.invariant _ _ _ _ _ _ _ (fun s => s.error = .success) hstart
        (fun s e t hs _ ht => integrateStep_noError hnc hw hs ht) hr
    · rw [hc]
      exact hgo s hs hpc
  · obtain ⟨es, s, hr, -, hend⟩ := Lib.Run.exists_end hsums hstep fun s hs hpc =>
      (hgo s hs hpc).imp fun e ⟨t, ht⟩ => ⟨t, trivial, ht⟩
    refine ⟨es, s, ?_, hend⟩
    unfold IntegrateRun
    rw [hc]
    exact hr

/-- **What `Integrate` computes.** Whatever the calls answer and however many processors there
    are, every schedule of `Integrate` and its threads is bounded and goes on to the return; it
    returns `SUCCESS` exactly if it has written `*result`, which it does when no call fails, and
    what it writes is always the sum of `CalcIntegral` over `n` equal slices. -/
theorem integrate_result (w : Calls) (m : Machine (ℚ → ℚ)) (hn : 1 ≤ n) (hstep : 0 < step)
    (begin_ end_ : ℚ) (foo : ℚ → ℚ) :
    (∀ t : ThreadInfo (ℚ → ℚ), ∃ k, ∀ fuel, k < fuel →
      calcIntegral step fuel t.begin_ t.end_ t.foo = some (threadValue step t)) ∧
    ∃ s₀, integrateStart w m n begin_ end_ foo = some s₀ ∧
      ∀ es s, IntegrateRun (threadValue step) w m n s₀ es s →
        es.length ≤ 2 * (nThreadCreate m n).toNat + n + 3 ∧
          s.Computes (threadValue step) w m n (sliceSum step foo begin_ end_ n) := by
  obtain ⟨s₀, hs₀, hall, -⟩ := IntegrateRun.computes w m hn step begin_ end_ foo
  exact ⟨fun t => calcIntegral_value hstep t.foo t.begin_ t.end_, s₀, hs₀, hall⟩

/-- Nothing fails. -/
def allCalls : Calls :=
  ⟨true, true, true, true, fun _ => true, true, fun _ => true, fun _ => true⟩

/-- A machine with four processors. -/
def fourCpus : Machine (ℚ → ℚ) := ⟨4, fun _ => ⟨0, 0, 0, id⟩⟩

/-- Three threads on four processors: the fourth is started and not added. -/
theorem integrate_result_three :
    (∀ t : ThreadInfo (ℚ → ℚ), ∃ k, ∀ fuel, k < fuel →
      calcIntegral 1 fuel t.begin_ t.end_ t.foo = some (threadValue 1 t)) ∧
    ∃ s₀, integrateStart allCalls fourCpus 3 0 300 id = some s₀ ∧
      ∀ es s, IntegrateRun (threadValue 1) allCalls fourCpus 3 s₀ es s →
        es.length ≤ 14 ∧ s.Computes (threadValue 1) allCalls fourCpus 3 (sliceSum 1 id 0 300 3) :=
  integrate_result (n := 3) allCalls fourCpus (by decide) one_pos 0 300 id

end Integrate

end CompTech.Network
