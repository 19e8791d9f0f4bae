import CompTech.Network.Divide

/-!
# The slices tile the interval

`fillThreadInfo_eq` and `divideWork_eq` say in closed form what the two loops leave. Both
closed forms speak of the same width: a worker's task of `k` threads is `k` widths long, so
dividing its length by `k` again gives the width `divide_work` started from, whatever share
the last worker is left with. `slices_tile` puts the two together.

Both loops store into a list of records that is there already, so what they leave is said for every
record of the list (`mapIdx`), those that the loop does not reach included.
-/

namespace CompTech.Network

/-! ## One worker

`fill_thread_info`: the first `n_threads - 1` records by the loop, the next one with the given end,
and behind them the ones that are not for the result. -/

section

variable {φ : Type}

/-- What `fill_thread_info` writes into cell `i` when it serves `n` threads. -/
def sliceInfo (init : ThreadInfo φ) (n i : Nat) (t : ThreadInfo φ) : ThreadInfo φ :=
  let w := (init.end_ - init.begin_) / (n : ℚ)
  if i + 1 < n then
    { t with begin_ := init.begin_ + i * w, end_ := init.begin_ + (i + 1) * w, foo := init.foo }
  else if i + 1 = n then
    { t with begin_ := init.begin_ + i * w, end_ := init.end_, foo := init.foo }
  else
    { t with begin_ := init.begin_, end_ := init.begin_ + w, foo := init.foo }

/-- The loop of `fill_thread_info`: round `i` writes the slice `i`, and the ends carried on are
    those of the slice after the last. -/
theorem fillRound_loop (w b : ℚ) (foo : φ) {k : Nat} {l : List (ThreadInfo φ)}
    (hk : k ≤ l.length) :
    (List.range' 0 k).foldlM (fillRound w foo) (l, b, b + w) = some
      (l.mapIdx fun i t => if i < k then
        { t with begin_ := b + i * w, end_ := b + (i + 1) * w, foo := foo } else t,
      b + k * w, b + (k + 1) * w) := by
  have hnext : ∀ i : Nat, (b + (i + 1) * w, b + (i + 1) * w + w) =
      (b + ((i + 1 : Nat) : ℚ) * w, b + (((i + 1 : Nat) : ℚ) + 1) * w) := by
    intro i
    push_cast
    rw [Prod.mk.injEq]
    exact ⟨rfl, by ring⟩
  have h := Lib.foldlM_storeAt_carry (fun (p : ℚ × ℚ) (t : ThreadInfo φ) =>
    { t with begin_ := p.1, end_ := p.2, foo := foo }) (fun p => (p.2, p.2 + w))
    (fun i => (b + (i : ℚ) * w, b + ((i : ℚ) + 1) * w)) hnext k 0 l
  rw [Lib.foldlM_storeAt _ k 0 l (by omega)] at h
  simp only [Nat.zero_le, true_and, Option.map_some, Nat.cast_zero, zero_mul, zero_add, one_mul,
    add_zero] at h
  exact h

theorem fillThreadInfo_eq (l : List (ThreadInfo φ)) (init : ThreadInfo φ) {n : Nat}
    (hn : 0 < n) (hlen : n ≤ l.length) :
    fillThreadInfo (some l) l.length init n = some (0, some (l.mapIdx (sliceInfo init n))) := by
  obtain ⟨k, rfl⟩ : ∃ k, n = k + 1 := ⟨n - 1, by omega⟩
  have hpos : ¬ ((k + 1 : Nat) : Int) = 0 := by omega
  have hneg : ¬ ((k + 1 : Nat) : Int) < 0 := by omega
  have hlast : (((k + 1 : Nat) : Int) - 1).toNat = k := by omega
  have hsurplus : ((l.length : Int) - ((k + 1 : Nat) : Int)).toNat = l.length - (k + 1) := by
    omega
  unfold fillThreadInfo
  simp only [if_neg hpos, if_neg hneg, hlast, hsurplus, Int.cast_natCast, Int.toNat_natCast,
    Option.bind_eq_bind]
  rw [fillRound_loop _ _ _ (by omega), Option.bind_some]
  dsimp only
  rw [Lib.storeAt_of_lt _ (by rw [List.length_mapIdx]; omega), Option.bind_some,
    Lib.foldlM_storeAt _ _ _ _ (by simp only [List.length_mapIdx]; omega), Option.bind_some,
    List.mapIdx_mapIdx, List.mapIdx_mapIdx]
  refine congrArg (fun l' => some ((0 : Int), some l')) ?_
  refine List.mapIdx_eq_mapIdx_iff.mpr fun i hi => ?_
  simp only [Function.comp_apply, sliceInfo]
  rcases Nat.lt_trichotomy i k with h | rfl | h
  · rw [if_neg (by omega), if_neg (by omega), if_pos h, if_pos (by omega)]
  · rw [if_neg (by omega), if_pos rfl, if_neg (by omega), if_neg (by omega), if_pos rfl]
  · rw [if_pos (by omega), if_neg (by omega), if_neg (by omega), if_neg (by omega),
      if_neg (by omega)]

/-- The two ends of the records whose threads work for the result. -/
def resultSlices (n : Nat) (infosp : List (ThreadInfo φ)) : List (ℚ × ℚ) :=
  (infosp.take n).map fun t => (t.begin_, t.end_)

/-- The slices of the worker that got the task `w`; `none` when `Integrate` does not come to
    start its threads. -/
def workerSlices (m : Machine φ) (foo : φ) (w : WorkerInfo) : Option (List (ℚ × ℚ)) :=
  match integrateInfos m w.nThreads.toInt w.begin_ w.end_ foo with
  | some (0, some infosp) => some (resultSlices w.nThreads.toInt.toNat infosp)
  | _ => none

theorem resultSlices_eq (l : List (ThreadInfo φ)) (init : ThreadInfo φ) {n : Nat} {w : ℚ}
    (hn : 0 < n) (hlen : n ≤ l.length) (hw : init.end_ - init.begin_ = n * w) :
    resultSlices n (l.mapIdx (sliceInfo init n)) = Lib.equalSlices w init.begin_ n := by
  have hn' : (n : ℚ) ≠ 0 := by exact_mod_cast hn.ne'
  have hdiv : (init.end_ - init.begin_) / (n : ℚ) = w := by rw [hw]; field_simp
  refine List.ext_getElem ?_ fun i hi hi' => ?_
  · simp only [resultSlices, Lib.equalSlices, List.length_map, List.length_take,
      List.length_mapIdx, List.length_range]
    omega
  · have hin : i < n := by simpa [Lib.equalSlices] using hi'
    simp only [resultSlices, Lib.equalSlices, List.getElem_map, List.getElem_take,
      List.getElem_mapIdx, List.getElem_range, sliceInfo, hdiv]
    by_cases h : i + 1 < n
    · rw [if_pos h]
    · have hlast : i + 1 = n := by omega
      have hend : init.end_ = init.begin_ + ((i : ℚ) + 1) * w := by
        have hcast : (n : ℚ) = (i : ℚ) + 1 := by rw [← hlast]; push_cast; rfl
        rw [← hcast, ← hw]
        ring
      rw [if_neg h, if_pos hlast, hend]

/-- A task of `n` threads whose length is `n` widths is cut into `n` slices of that width,
    on any machine. -/
theorem workerSlices_tile (m : Machine φ) (foo : φ) (w : WorkerInfo) {n : Nat} {δ : ℚ}
    (hn : w.nThreads.toInt = n) (hpos : 0 < n) (hδ : w.end_ - w.begin_ = n * δ) :
    ∃ l, workerSlices m foo w = some l ∧ l.length = n ∧ Lib.Tiles δ w.begin_ l w.end_ := by
  set created : Int := if w.nThreads.toInt > m.nCpus then w.nThreads.toInt else m.nCpus with hc
  have hcreated : (n : Int) ≤ created := by rw [hc, hn]; split <;> omega
  set block := buildThreadInfo m created with hblock
  have hlen : (block.length : Int) = created := by
    rw [hblock, buildThreadInfo, List.length_map, List.length_range]
    omega
  set init : ThreadInfo φ := { begin_ := w.begin_, end_ := w.end_, res := 0, foo := foo }
  have hfill : integrateInfos m w.nThreads.toInt w.begin_ w.end_ foo =
      some (0, some (block.mapIdx (sliceInfo init n))) := by
    have h := fillThreadInfo_eq block init hpos (by omega)
    rw [hlen, ← hn] at h
    exact h
  refine ⟨Lib.equalSlices δ w.begin_ n, ?_, by simp [Lib.equalSlices], ?_⟩
  · rw [workerSlices, hfill]
    simp only [hn, Int.toNat_natCast]
    rw [resultSlices_eq block init hpos (by omega) hδ]
  · have h := Lib.tiles_equalSlices δ w.begin_ n
    rwa [← hδ, show w.begin_ + (w.end_ - w.begin_) = w.end_ by ring] at h

end

/-! ## The tasks

`divide_work`, under the names it uses: the share of the threads is an unsigned division, and the
last task gets the rest of them. -/

/-- The loop of `divide_work`: round `i` writes the task between the cuts `i` and `i + 1`. -/
theorem divideRound_loop (w b : ℚ) (share : BitVec 32) {k : Nat} {l : List HandlerInfo}
    (hk : k ≤ l.length) :
    (List.range' 0 k).foldlM (divideRound w share) (l, b) = some
      (l.mapIdx fun i t => if i < k then
        { t with wInfo := ⟨b + i * (w * share.toInt), b + (i + 1 : Nat) * (w * share.toInt),
            share⟩ } else t,
      b + k * (w * share.toInt)) := by
  have hnext : ∀ i : Nat, b + i * (w * share.toInt) + w * share.toInt =
      b + (i + 1 : Nat) * (w * share.toInt) := by
    intro i
    push_cast
    ring
  have h := Lib.foldlM_storeAt_carry (fun (p : ℚ) (t : HandlerInfo) =>
    { t with wInfo := ⟨p, p + w * share.toInt, share⟩ }) (fun p => p + w * share.toInt)
    (fun i => b + i * (w * share.toInt)) hnext k 0 l
  rw [Lib.foldlM_storeAt _ k 0 l (by omega)] at h
  simp only [Nat.zero_le, true_and, Nat.zero_add, Option.map_some, Nat.cast_zero, zero_mul,
    add_zero, hnext] at h
  exact h

/-- The task of worker `i` of `m`, when every worker but the last serves `q` threads on an interval
    of length `width`, and the last serves `r`. -/
def taskAt (begin_ end_ width : ℚ) (m q r i : Nat) : HandlerInfo :=
  let cut : Nat → ℚ := fun i => begin_ + i * width
  if i + 1 < m then
    ⟨⟨cut i, cut (i + 1), BitVec.ofNat 32 q⟩, 0⟩
  else
    ⟨⟨cut i, end_, BitVec.ofNat 32 r⟩, 0⟩

/-- The task of worker `i` of `m`, when every worker but the last serves `q` threads and the
    last serves `r`. -/
def taskInfo (begin_ end_ interval : ℚ) (m q r i : Nat) : HandlerInfo :=
  let cut : Nat → ℚ := fun i => begin_ + i * (interval * q)
  if i + 1 < m then
    ⟨⟨cut i, cut (i + 1), BitVec.ofNat 32 q⟩, 0⟩
  else
    ⟨⟨cut i, end_, BitVec.ofNat 32 r⟩, 0⟩

section

variable {nCpus nMachines nThreads : BitVec 32} {begin_ end_ : ℚ}

/-- The number of workers is the smaller of the two counts. -/
theorem toNat_workers (a b : BitVec 32) :
    (if a < b then a else b).toNat = min a.toNat b.toNat := by
  split
  · rename_i h; exact (Nat.min_eq_left (Nat.le_of_lt h)).symm
  · rename_i h; exact (Nat.min_eq_right (Nat.le_of_not_lt h)).symm

theorem toNat_ofNat_of_le {w : BitVec 32} {k : Nat} (hk : k ≤ w.toNat) :
    (BitVec.ofNat 32 k).toNat = k := by
  have hlt := w.isLt
  rw [BitVec.toNat_ofNat]
  omega

/-- What the last worker is left with. With one worker the loop has made no round, and
    `task[0].n_threads` is the zero of `calloc`. -/
theorem lastShare {first : BitVec 32} {m q : Nat} (hle : (m - 1) * q ≤ nThreads.toNat)
    (hfirst : first = if 0 < m - 1 then BitVec.ofNat 32 q else 0) :
    nThreads - BitVec.ofNat 32 (m - 1) * first =
      BitVec.ofNat 32 (nThreads.toNat - (m - 1) * q) := by
  have hprod : BitVec.ofNat 32 (m - 1) * first = BitVec.ofNat 32 ((m - 1) * q) := by
    rw [hfirst]
    split
    · exact (BitVec.ofNat_mul _ _).symm
    · rename_i h
      rw [show m - 1 = 0 by omega, Nat.zero_mul]
      rfl
  have hto := toNat_ofNat_of_le hle
  refine BitVec.eq_of_toNat_eq ?_
  rw [hprod, BitVec.toNat_sub_of_le (by rw [BitVec.le_def, hto]; exact hle), hto,
    toNat_ofNat_of_le (Nat.sub_le _ _)]

/-- The width of a task is that of its share read as an `int`, whatever the counts are. -/
theorem divideWork_tasks (hcpus : nCpus ≠ 0) (hm : 1 ≤ nMachines.toNat)
    (hn : 1 ≤ nThreads.toNat) {m q : Nat}
    (hmin : m = min nMachines.toNat nThreads.toNat) (hq : q = nThreads.toNat / m) :
    divideWork nCpus ⟨true, true⟩ nMachines nThreads begin_ end_ = some (some
      ⟨(List.range m).map (taskAt begin_ end_
        ((end_ - begin_) / nThreads.toNat * ((BitVec.ofNat 32 q).toInt : ℚ)) m q
        (nThreads.toNat - (m - 1) * q)), BitVec.ofNat 32 m⟩, .success) := by
  set workers : BitVec 32 := if nMachines < nThreads then nMachines else nThreads with hworkers
  have hwm : workers.toNat = m := hmin ▸ toNat_workers nMachines nThreads
  have hm1 : 1 ≤ m := hmin ▸ Nat.le_min.mpr ⟨hm, hn⟩
  have hqn : q ≤ nThreads.toNat := hq ▸ Nat.div_le_self _ _
  have hmq : (m - 1) * q ≤ nThreads.toNat :=
    (Nat.mul_le_mul_right q (Nat.sub_le m 1)).trans (hq ▸ Nat.mul_div_le _ _)
  have hshare : nThreads / workers = BitVec.ofNat 32 q := by
    refine BitVec.eq_of_toNat_eq ?_
    rw [BitVec.toNat_udiv, hwm, toNat_ofNat_of_le hqn, hq]
  have hpredNat : (BitVec.ofNat 32 (m - 1)).toNat = m - 1 :=
    toNat_ofNat_of_le (w := workers) (by omega)
  have hpred : workers - 1 = BitVec.ofNat 32 (m - 1) := by
    refine BitVec.eq_of_toNat_eq ?_
    rw [BitVec.toNat_sub_of_le (by rw [BitVec.le_def, hwm]; exact hm1), hwm, hpredNat]
    rfl
  have hsize : workers = BitVec.ofNat 32 m := by
    rw [← hwm, BitVec.ofNat_toNat, BitVec.setWidth_eq]
  have hinval : ¬ (nMachines = 0 ∨ nThreads = 0) := by
    rintro (h | h)
    · rw [h] at hm; exact absurd hm (by decide)
    · rw [h] at hn; exact absurd hn (by decide)
  unfold divideWork
  simp only [if_neg hinval, if_neg hcpus, ← hworkers, hwm, hpred, hpredNat, hshare,
    Option.bind_eq_bind, Bool.true_eq_false, if_false]
  rw [divideRound_loop _ _ _ (by rw [List.length_replicate]; omega), Option.bind_some]
  rw [List.getElem?_mapIdx, List.getElem?_replicate, if_pos (by omega), Option.map_some,
    Option.bind_some, lastShare (q := q) hmq (by split <;> rfl),
    Lib.storeAt_of_lt _ (by rw [List.length_mapIdx, List.length_replicate]; omega),
    Option.bind_some, List.mapIdx_mapIdx, hsize]
  refine congrArg (fun task => some (some (TasksForWorkers.mk task _), Error.success)) ?_
  refine List.ext_getElem (by simp) fun i hi _ => ?_
  have him : i < m := by simpa using hi
  simp only [List.getElem_mapIdx, List.getElem_replicate, List.getElem_map, List.getElem_range,
    Function.comp_apply, taskAt]
  by_cases h : i + 1 < m
  · rw [if_neg (by omega), if_pos (by omega), if_pos h]
    rfl
  · have hi : i = m - 1 := by omega
    rw [if_pos hi, if_neg (by omega), if_neg h, hi]
    rfl

theorem divideWork_eq (hcpus : nCpus ≠ 0) (hm : 1 ≤ nMachines.toNat)
    (hn : 1 ≤ nThreads.toNat) (hn' : nThreads.toNat < 2 ^ 31) {m q : Nat}
    (hmin : m = min nMachines.toNat nThreads.toNat) (hq : q = nThreads.toNat / m) :
    divideWork nCpus ⟨true, true⟩ nMachines nThreads begin_ end_ = some (some
      ⟨(List.range m).map (taskInfo begin_ end_ ((end_ - begin_) / nThreads.toNat) m q
        (nThreads.toNat - (m - 1) * q)), BitVec.ofNat 32 m⟩, .success) := by
  have hqn : q ≤ nThreads.toNat := hq ▸ Nat.div_le_self _ _
  have hshareInt : (((BitVec.ofNat 32 q).toInt : Int) : ℚ) = (q : ℚ) := by
    have hto := toNat_ofNat_of_le hqn
    rw [BitVec.toInt_eq_toNat_of_lt (by omega), hto, Int.cast_natCast]
  rw [divideWork_tasks hcpus hm hn hmin hq, hshareInt]
  rfl

/-! ## Both levels

The slices of all threads, in order, are the intervals between the points `begin + k * width`; the
join between two workers is such a point, as a task ends where the next one begins. -/

/-- The cut between the workers `i - 1` and `i` of `m`. -/
def cutAt (begin_ end_ interval : ℚ) (m q i : Nat) : ℚ :=
  if i < m then begin_ + i * (interval * q) else end_

/-- The number of threads of worker `i` of `m`. -/
def shareOf (m q r i : Nat) : Nat := if i + 1 < m then q else r

theorem taskInfo_wInfo (begin_ end_ interval : ℚ) {m q r i : Nat} (hi : i < m) :
    (taskInfo begin_ end_ interval m q r i).wInfo =
      ⟨cutAt begin_ end_ interval m q i, cutAt begin_ end_ interval m q (i + 1),
        BitVec.ofNat 32 (shareOf m q r i)⟩ := by
  unfold taskInfo cutAt shareOf
  by_cases h : i + 1 < m
  · simp only [if_pos h, if_pos hi]
  · simp only [if_neg h, if_pos hi]

/-- `m` machines make `m - 1` shares of `q` and one of `r`. -/
theorem sum_shareOf {m q r : Nat} (hm : 1 ≤ m) :
    ((List.range m).map (shareOf m q r)).sum = (m - 1) * q + r := by
  obtain ⟨k, rfl⟩ : ∃ k, m = k + 1 := ⟨m - 1, by omega⟩
  have hinit : (List.range k).map (shareOf (k + 1) q r) = List.replicate k q := by
    refine List.ext_getElem (by simp) fun i hi _ => ?_
    have hik : i < k := by simpa using hi
    simp [shareOf, hik]
  rw [List.range_succ, List.map_append, List.sum_append, hinit, List.sum_replicate]
  simp [shareOf]

/-- All the workers' slices, in the order of the workers; worker `k` computes on `machine k`. -/
def allSlices {φ : Type} (machine : Nat → Machine φ) (foo : φ) (tasks : List HandlerInfo) :
    Option (List (ℚ × ℚ)) :=
  ((tasks.mapIdx fun k t => workerSlices (machine k) foo t.wInfo).mapM id).map List.flatten

/-- Worker `i` cuts what lies between its two cuts, into as many slices as it has threads. -/
theorem workerSlices_taskInfo {φ : Type} (machine : Machine φ) (foo : φ) (w b : ℚ)
    {m q r i : Nat} (hi : i < m) (hq : 0 < q) (hr : 0 < r) (hq' : q < 2 ^ 31) (hr' : r < 2 ^ 31) :
    ∃ l, workerSlices machine foo
        (taskInfo b (b + ((m - 1) * q + r : Nat) * w) w m q r i).wInfo = some l ∧
      l.length = shareOf m q r i ∧
      Lib.Tiles w (cutAt b (b + ((m - 1) * q + r : Nat) * w) w m q i) l
        (cutAt b (b + ((m - 1) * q + r : Nat) * w) w m q (i + 1)) := by
  have hpos : 0 < shareOf m q r i := by unfold shareOf; split <;> assumption
  have hlt : shareOf m q r i < 2 ^ 31 := by unfold shareOf; split <;> assumption
  have hto : (BitVec.ofNat 32 (shareOf m q r i)).toInt = shareOf m q r i := by
    have h : (BitVec.ofNat 32 (shareOf m q r i)).toNat = shareOf m q r i := by
      rw [BitVec.toNat_ofNat]
      omega
    rw [BitVec.toInt_eq_toNat_of_lt (by omega), h]
  rw [taskInfo_wInfo _ _ _ hi]
  refine workerSlices_tile machine foo _ hto hpos ?_
  simp only [cutAt, shareOf, if_pos hi]
  by_cases h : i + 1 < m
  · simp only [if_pos h]
    push_cast
    ring
  · obtain rfl : m = i + 1 := by omega
    simp only [if_neg h, Nat.add_sub_cancel]
    push_cast
    ring

theorem allSlices_eq {φ : Type} {machine : Nat → Machine φ} {foo : φ} {tasks : List HandlerInfo}
    {parts : List (List (ℚ × ℚ))} (hlen : parts.length = tasks.length)
    (h : ∀ i (hi : i < tasks.length), workerSlices (machine i) foo tasks[i].wInfo = parts[i]?) :
    allSlices machine foo tasks = some parts.flatten := by
  have hparts : (tasks.mapIdx fun k t => workerSlices (machine k) foo t.wInfo) =
      parts.map some := by
    refine List.ext_getElem (by simp [hlen]) fun i hi hi' => ?_
    simp only [List.getElem_mapIdx, List.getElem_map]
    rw [h i (by simpa using hi), List.getElem?_eq_getElem (by simpa using hi')]
  have hsome : ∀ l : List (List (ℚ × ℚ)), (l.map some).mapM id = some l := by
    intro l
    induction l with
    | nil => rfl
    | cons a l ih => rw [List.map_cons, List.mapM_cons, ih]; rfl
  rw [allSlices, hparts, hsome, Option.map_some]

/-- The slices of `m` tasks of `q` threads each and `r` for the last are equal steps from `b`
    to `e`. -/
theorem allSlices_tile {φ : Type} (machine : Nat → Machine φ) (foo : φ) {w b e : ℚ} {m q r : Nat}
    (hm : 1 ≤ m) (hq : 0 < q) (hr : 0 < r) (hq' : q < 2 ^ 31) (hr' : r < 2 ^ 31)
    (he : e = b + ((m - 1) * q + r : Nat) * w) :
    ∃ slices, allSlices machine foo ((List.range m).map (taskInfo b e w m q r)) = some slices ∧
      Lib.EqualTiling w b ((m - 1) * q + r) slices e := by
  have hworker := fun i (hi : i < m) =>
    workerSlices_taskInfo (machine i) foo w b hi hq hr hq' hr'
  rw [← he] at hworker
  choose part hpart hlen htiles using hworker
  obtain ⟨parts, hcount, hget⟩ : ∃ parts : List (List (ℚ × ℚ)), parts.length = m ∧
      ∀ i (hi : i < m) (hi' : i < parts.length), parts[i] = part i hi := by
    refine ⟨(List.range m).attach.map fun i => part i.1 (List.mem_range.mp i.2), by simp, ?_⟩
    intro i hi hi'
    simp
  have hflat := Lib.Tiles.flatten (cutAt b e w m q) parts 0 fun i hi => by
    rw [hget i (hcount ▸ hi), Nat.zero_add]
    exact htiles i (hcount ▸ hi)
  rw [hcount, Nat.zero_add] at hflat
  simp only [cutAt, if_pos (show 0 < m from hm), Nat.lt_irrefl, if_false, Nat.cast_zero, zero_mul,
    add_zero] at hflat
  have hlength : parts.flatten.length = (m - 1) * q + r := by
    rw [List.length_flatten, ← sum_shareOf (q := q) (r := r) hm]
    refine congrArg List.sum (List.ext_getElem (by simp [hcount]) fun i hi hi' => ?_)
    have him : i < m := by simpa using hi'
    rw [List.getElem_map, List.getElem_map, List.getElem_range, hget i him]
    exact hlen i him
  refine ⟨parts.flatten, allSlices_eq (by simp [hcount]) fun i hi => ?_, hlength ▸ hflat.explicit⟩
  have him : i < m := by simpa using hi
  rw [List.getElem_map, List.getElem_range, List.getElem?_eq_getElem (by omega), hget i him]
  exact hpart i him

/-- **Two levels of division tile the interval.** The tasks are as many as the smaller count, every
    task has a thread, the threads add up, and whatever machines the workers run on, the slices of
    all their threads are `n_threads` equal steps from `begin` to `end`. Both loops carry a left
    end, and both set the last right end to the given one, so that nothing is left over whatever the
    divisions come to. The remainder of the threads goes to the last task. -/
theorem slices_tile (hcpus : nCpus ≠ 0) (hm : 1 ≤ nMachines.toNat) (hn : 1 ≤ nThreads.toNat)
    (hn' : nThreads.toNat < 2 ^ 31) (begin_ end_ : ℚ) :
    ∃ tasks, divideWork nCpus ⟨true, true⟩ nMachines nThreads begin_ end_ =
        some (some tasks, .success) ∧
      tasks.task.length = min nMachines.toNat nThreads.toNat ∧
      tasks.size.toInt = min nMachines.toNat nThreads.toNat ∧
      (∀ t ∈ tasks.task, 1 ≤ t.wInfo.nThreads.toInt) ∧
      (tasks.task.map fun t => t.wInfo.nThreads.toInt).sum = nThreads.toNat ∧
      ∀ (φ : Type) (machine : Nat → Machine φ) (foo : φ), ∃ slices,
        allSlices machine foo tasks.task = some slices ∧
        Lib.EqualTiling ((end_ - begin_) / nThreads.toNat) begin_ nThreads.toNat slices end_ := by
  obtain ⟨m, hmin⟩ : ∃ m, m = min nMachines.toNat nThreads.toNat := ⟨_, rfl⟩
  obtain ⟨q, hq⟩ : ∃ q, q = nThreads.toNat / m := ⟨_, rfl⟩
  obtain ⟨r, hr⟩ : ∃ r, r = nThreads.toNat - (m - 1) * q := ⟨_, rfl⟩
  set w : ℚ := (end_ - begin_) / (nThreads.toNat : ℚ) with hw
  have hm1 : 1 ≤ m := hmin ▸ Nat.le_min.mpr ⟨hm, hn⟩
  have hmn : m ≤ nThreads.toNat := hmin ▸ Nat.min_le_right _ _
  have hq1 : 1 ≤ q := hq ▸ Nat.div_pos hmn hm1
  have hqn : q ≤ nThreads.toNat := hq ▸ Nat.div_le_self _ _
  have hmq : m * q ≤ nThreads.toNat := hq ▸ Nat.mul_div_le _ _
  have hsplit : m * q = (m - 1) * q + q := by
    rw [← Nat.succ_mul, Nat.succ_eq_add_one, Nat.sub_add_cancel hm1]
  have hsum : (m - 1) * q + r = nThreads.toNat := by omega
  have hr1 : 1 ≤ r := by omega
  have hend : end_ = begin_ + (((m - 1) * q + r : Nat) : ℚ) * w := by
    have hne : (nThreads.toNat : ℚ) ≠ 0 := by exact_mod_cast (Nat.ne_of_gt hn)
    rw [hsum, hw]
    field_simp
    ring
  have hshare : ∀ i, (BitVec.ofNat 32 (shareOf m q r i)).toInt = shareOf m q r i := by
    intro i
    have hle : shareOf m q r i ≤ nThreads.toNat := by unfold shareOf; split <;> omega
    have hto := toNat_ofNat_of_le hle
    rw [BitVec.toInt_eq_toNat_of_lt (by omega), hto]
  rw [divideWork_eq hcpus hm hn hn' hmin hq, ← hr, ← hw, ← hmin]
  refine ⟨_, rfl, by simp, ?_, ?_, ?_, fun φ machine foo => ?_⟩
  · have hto := toNat_ofNat_of_le hmn
    show (BitVec.ofNat 32 m).toInt = m
    rw [BitVec.toInt_eq_toNat_of_lt (by omega), hto]
  · intro t ht
    obtain ⟨i, hi, rfl⟩ := List.mem_map.mp ht
    rw [taskInfo_wInfo _ _ _ (List.mem_range.mp hi), hshare]
    unfold shareOf
    split <;> omega
  · have hmap : ((List.range m).map (taskInfo begin_ end_ w m q r)).map
        (fun t => t.wInfo.nThreads.toInt) = ((List.range m).map (shareOf m q r)).map Nat.cast := by
      rw [List.map_map, List.map_map]
      refine List.map_congr_left fun i hi => ?_
      rw [Function.comp_apply, taskInfo_wInfo _ _ _ (List.mem_range.mp hi), hshare]
      rfl
    rw [hmap, ← Nat.cast_list_sum, sum_shareOf hm1, hsum]
  · have h := allSlices_tile machine foo hm1 hq1 hr1 (by omega) (by omega) hend
    rwa [hsum] at h

/-- Five threads on two machines of four processors: the second machine gets three of them. -/
theorem slices_tile_five_two : ∃ tasks, divideWork 4 ⟨true, true⟩ 2 5 0 300 =
      some (some tasks, .success) ∧ tasks.task.length = 2 ∧
    ∃ slices, allSlices (fun _ => ⟨4, fun _ => ⟨0, 0, 0, ()⟩⟩) () tasks.task = some slices ∧
      Lib.EqualTiling (((300 - 0) / (5 : Nat) : ℚ)) 0 5 slices 300 := by
  obtain ⟨tasks, htasks, hlen, _, _, _, hslices⟩ := slices_tile
    (show (4 : BitVec 32) ≠ 0 by decide) (show 1 ≤ (2 : BitVec 32).toNat by decide)
    (show 1 ≤ (5 : BitVec 32).toNat by decide) (by decide) 0 300
  exact ⟨tasks, htasks, hlen, hslices Unit _ ()⟩

end

end CompTech.Network
