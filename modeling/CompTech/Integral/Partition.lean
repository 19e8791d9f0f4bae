import CompTech.Lib.Natural
import CompTech.Lib.Stores
import CompTech.Lib.Tiling

/-!
# The local integrator

`integral_info_construct` fills one record for each thread it is going to start. There are three
kinds: idle ones that warm the machine up, useful ones that share the interval, and — when more
threads are asked for than there are processors — surplus ones that integrate over a single
step. `main` starts them all and adds the sums of the records from `empty_threads` on.

With at most as many threads as processors those are the useful ones, and their intervals tile
the whole. With more, `empty_threads` is 0 and the surplus records are behind the useful ones:
`main` adds the beginning of the interval once more for each of them.

`long double` is an exact rational. `none` is an exit through `ERROR_INFO` or undefined
behaviour: a division by zero, an access outside the block.
-/

namespace CompTech.Integral

/-- A `thread_info`: the interval of a thread, and its sum. -/
structure ThreadInfo where
  idThread : Nat
  numThread : Int
  x1 : ℚ
  x2 : ℚ
  step : ℚ
  sum : ℚ

/-- An `integral_info`: the numbers of the threads, their records, and the whole interval. -/
structure IntegralInfo where
  inputThreads : Int
  onlineThreads : Int
  emptyThreads : Int
  maxThreads : Int
  bufInfoThread : List ThreadInfo
  x1 : ℚ
  x2 : ℚ
  step : ℚ
  sum : ℚ

/-- The id of a thread that has not started. -/
def POISON_ID : Nat := 0

/-- What `main` is started with, and what the machine answers. -/
structure Launch where
  -- what `strtol` makes of the argument, and whether it took all of it
  digit : Int
  parsed : Bool
  -- `sysconf (_SC_NPROCESSORS_ONLN)`
  online : Int
  allocates : Bool
  fresh : Nat → ThreadInfo

/-- Whatever is wrong with the argument, one text is printed and the answer is −1. -/
def refusals : Lib.Refusals Int := ⟨-1, -1, -1⟩

/-- `get_input_threads`, from the answer of `strtol` on, which leaves `errno` alone. -/
def getInputThreads (l : Launch) : Int :=
  match Lib.natural refusals 0 l.parsed l.digit with
  | .ok digit => digit
  | .error answer => answer

/-! ## integral_info_construct -/

/-- The block is rounded up to whole cache lines; only `nmemb` records of it are used. -/
def roundupCacheLineAlloc (l : Launch) (nmemb : Int) : Option (List ThreadInfo) :=
  if l.allocates then some ((List.range nmemb.toNat).map l.fresh) else none

/-- An idle thread: the first interval once more, for its processor to be busy. -/
def emptyThread (x1 step deltaX : ℚ) (i : Nat) : ThreadInfo :=
  ⟨POISON_ID, i, x1, x1 + deltaX, step, 0⟩

/-- `i_onl_thread` counts the useful threads on its own. -/
def usefulThread (x1 step deltaX : ℚ) (empty i : Nat) : ThreadInfo :=
  -- the interval's own number
  let iOnl : ℚ := (i - empty : Nat)
  ⟨POISON_ID, i, x1 + iOnl * deltaX, x1 + (iOnl + 1) * deltaX, step, 0⟩

/-- A thread beyond the processors: one step, at the beginning. -/
def surplusThread (x1 step : ℚ) (online : Int) (i : Nat) : ThreadInfo :=
  ⟨POISON_ID, i % online, x1, x1 + step, step, 0⟩

/-- A counting loop that stores a record in each cell it passes. -/
def fillThreads (f : Nat → ThreadInfo) (first last : Nat) (buf : List ThreadInfo) :
    Option (List ThreadInfo) :=
  (List.range' first (last - first)).foldlM (fun buf i => Lib.storeAt buf i fun _ => f i) buf

/-- `integral_info_construct`. With more threads than processors none is idle, and the interval is
    cut into as many parts as there are processors. -/
def integralInfoConstruct (l : Launch) (x1 x2 step : ℚ) : Option IntegralInfo := do
  let inputThreads := getInputThreads l
  if inputThreads < 0 ∨ l.online < 0 then none
  let (emptyThreads, maxThreads) :=
    if inputThreads ≥ l.online then (0, inputThreads) else (l.online - inputThreads, l.online)
  let buf ← roundupCacheLineAlloc l maxThreads
  -- no processor: a division by zero
  if l.online = 0 then none
  -- `max_threads > online_threads`: surplus threads take no share
  let deltaX := if maxThreads > l.online then (x2 - x1) / l.online else (x2 - x1) / inputThreads
  let buf ← fillThreads (emptyThread x1 step deltaX) 0 emptyThreads.toNat buf
  let buf ← fillThreads (usefulThread x1 step deltaX emptyThreads.toNat) emptyThreads.toNat
    l.online.toNat buf
  let buf ← fillThreads (surplusThread x1 step l.online) l.online.toNat maxThreads.toNat buf
  return ⟨inputThreads, l.online, emptyThreads, maxThreads, buf, x1, x2, step, 0⟩

/-! ## integral -/

/-- The loop of `integral`: the left end of each step. -/
def integralLoop (f : ℚ → ℚ) (x2 step : ℚ) : Nat → ℚ → ℚ → Option ℚ
  | 0, _, _ => none
  | fuel + 1, x, sum =>
    if x < x2 then integralLoop f x2 step fuel (x + step) (sum + f x * step) else some sum

/-- What a thread leaves in its record; `integral_func` is a parameter. -/
def integral (f : ℚ → ℚ) (fuel : Nat) (t : ThreadInfo) : Option ThreadInfo :=
  (integralLoop f t.x2 t.step fuel t.x1 0).map fun sum => { t with sum := sum }

/-! ## main -/

/-- The loop that joins the threads and adds their sums. -/
def joinThreads (info : IntegralInfo) : Option ℚ :=
  (List.range info.maxThreads.toNat).foldlM (fun (sum : ℚ) (i : Nat) =>
    if (i : Int) ≥ info.emptyThreads then info.bufInfoThread[i]?.map (sum + ·.sum)
    else some sum) 0

/-- What `main` prints: every thread has run when it is joined. -/
def main (l : Launch) (f : ℚ → ℚ) (fuel : Nat) (x1 x2 step : ℚ) : Option ℚ := do
  let info ← integralInfoConstruct l x1 x2 step
  let buf ← info.bufInfoThread.mapM (integral f fuel)
  joinThreads { info with bufInfoThread := buf }

/-! ## The records that are added -/

/-- The records whose sums `main` adds. -/
def IntegralInfo.summed (info : IntegralInfo) : List ThreadInfo :=
  (info.bufInfoThread.take info.maxThreads.toNat).drop info.emptyThreads.toNat

/-- What it integrates over. -/
def ThreadInfo.interval (t : ThreadInfo) : ℚ × ℚ := (t.x1, t.x2)

theorem joinThreads_eq (info : IntegralInfo) (hempty : 0 ≤ info.emptyThreads)
    (hlen : info.maxThreads.toNat ≤ info.bufInfoThread.length) :
    joinThreads info = some (info.summed.map (·.sum)).sum := by
  have hloop : ∀ n, n ≤ info.bufInfoThread.length →
      (List.range n).foldlM (fun (sum : ℚ) (i : Nat) =>
        if (i : Int) ≥ info.emptyThreads then info.bufInfoThread[i]?.map (sum + ·.sum)
        else some sum) 0 =
      some (((info.bufInfoThread.take n).drop info.emptyThreads.toNat).map (·.sum)).sum := by
    intro n
    induction n with
    | zero => intro _; simp
    | succ n ih =>
      intro hn
      have hget : info.bufInfoThread[n]? = some (info.bufInfoThread.get ⟨n, hn⟩) := by simp
      rw [List.range_succ, List.foldlM_append, ih (by omega)]
      simp only [List.foldlM_cons, List.foldlM_nil, Option.bind_eq_bind, Option.bind_some, hget,
        Option.map_some, bind_pure, List.take_add_one, Option.toList_some]
      by_cases hge : (n : Int) ≥ info.emptyThreads
      · have hle : info.emptyThreads.toNat ≤ (info.bufInfoThread.take n).length := by
          rw [List.length_take]
          omega
        rw [if_pos hge, List.drop_append_of_le_length hle]
        simp
      · have hlt : (info.bufInfoThread.take n).length + 1 ≤ info.emptyThreads.toNat := by
          rw [List.length_take]
          omega
        rw [if_neg hge, List.drop_eq_nil_of_le (by simpa using by omega),
          List.drop_eq_nil_of_le (by simpa using by omega)]
  exact hloop _ hlen

/-! ## What the construction leaves -/

section Construct

variable (x1 x2 step : ℚ) (n P : Nat)

theorem fillThreads_eq (f : Nat → ThreadInfo) {first last : Nat} {buf : List ThreadInfo}
    (hfirst : first ≤ buf.length) (hlast : last ≤ buf.length) :
    fillThreads f first last buf =
      some (buf.mapIdx fun j t => if first ≤ j ∧ j < last then f j else t) := by
  rw [fillThreads, Lib.foldlM_storeAt _ _ _ _ (by omega)]
  congr 2
  funext j t
  by_cases hj : first ≤ j ∧ j < last
  · rw [if_pos hj, if_pos (by omega)]
  · rw [if_neg hj, if_neg (by omega)]

/-- The width of a useful thread's interval. -/
def deltaX : ℚ := if n ≤ P then (x2 - x1) / n else (x2 - x1) / P

/-- Record `i`, when `n` threads are asked for and there are `P` processors. -/
def threadOf (i : Nat) : ThreadInfo :=
  if i < P - n then emptyThread x1 step (deltaX x1 x2 n P) i
  else if i < P then usefulThread x1 step (deltaX x1 x2 n P) (P - n) i
  else surplusThread x1 step P i

/-- The launch of `n` threads on `P` processors, when nothing fails. -/
structure Launch.Plain (l : Launch) (n P : Nat) : Prop where
  digit : l.digit = n
  parsed : l.parsed = true
  online : l.online = P
  allocates : l.allocates = true

variable {x1 x2 step n P}

theorem integralInfoConstruct_eq {l : Launch} (hl : l.Plain n P) (hn : 1 ≤ n) (hP : 1 ≤ P) :
    integralInfoConstruct l x1 x2 step = some ⟨n, P, (P - n : Nat), (max n P : Nat),
      (List.range (max n P)).map (threadOf x1 x2 step n P), x1, x2, step, 0⟩ := by
  obtain ⟨digit, parsed, online, allocates, fresh⟩ := l
  obtain ⟨rfl, rfl, rfl, rfl⟩ := hl
  have hinput : getInputThreads ⟨n, true, P, true, fresh⟩ = n := by
    unfold getInputThreads
    rw [Lib.natural_of_pos (show (1 : Int) ≤ n by omega)]
  have hcounts : (if (n : Int) ≥ P then ((0 : Int), (n : Int)) else ((P : Int) - n, (P : Int))) =
      (((P - n : Nat) : Int), ((max n P : Nat) : Int)) := by
    split
    · rw [Nat.sub_eq_zero_of_le (by omega), Nat.max_eq_left (by omega)]
      rfl
    · rw [Nat.max_eq_right (by omega), Nat.cast_sub (by omega)]
  have hdelta : (if ((max n P : Nat) : Int) > (P : Int) then (x2 - x1) / ((P : Int) : ℚ)
      else (x2 - x1) / ((n : Int) : ℚ)) = deltaX x1 x2 n P := by
    unfold deltaX
    by_cases hle : n ≤ P
    · rw [if_neg (by omega), if_pos hle, Int.cast_natCast]
    · rw [if_pos (by omega), if_neg hle, Int.cast_natCast]
  have hlen : ((List.range (max n P)).map fresh).length = max n P := by simp
  unfold integralInfoConstruct
  simp only [hinput, hcounts, hdelta, roundupCacheLineAlloc, if_true, Int.toNat_natCast,
    Option.bind_eq_bind]
  rw [if_neg (by omega), Option.bind_some, if_neg (by omega),
    fillThreads_eq _ (by omega) (by rw [hlen]; omega), Option.bind_some,
    fillThreads_eq _ (by simp only [List.length_mapIdx, hlen]; omega)
      (by simp only [List.length_mapIdx, hlen]; omega), Option.bind_some,
    fillThreads_eq _ (by simp only [List.length_mapIdx, hlen]; omega)
      (by simp only [List.length_mapIdx, hlen]; omega), Option.bind_some]
  refine congrArg some (congrArg (IntegralInfo.mk _ _ _ _ · _ _ _ _) ?_)
  refine List.ext_getElem (by simp) fun i hi _ => ?_
  have hi' : i < max n P := by simpa using hi
  simp only [List.getElem_mapIdx, List.getElem_map, List.getElem_range, threadOf]
  by_cases hidle : i < P - n
  · rw [if_neg (by omega), if_neg (by omega), if_pos (by omega), if_pos hidle]
  · rw [if_neg hidle]
    by_cases huseful : i < P
    · rw [if_neg (by omega), if_pos (by omega), if_pos huseful]
    · rw [if_pos (by omega), if_neg huseful]

/-! ## What is added

A useful record has its own number of the interval, and the records that are added are the useful
ones, in order, and the surplus ones. -/

theorem summed_intervals {l : Launch} (hl : l.Plain n P) (hn : 1 ≤ n) (hP : 1 ≤ P)
    {info : IntegralInfo} (h : integralInfoConstruct l x1 x2 step = some info) :
    info.summed.map ThreadInfo.interval = if n ≤ P then
      Lib.equalSlices (deltaX x1 x2 n P) x1 n
    else
      Lib.equalSlices (deltaX x1 x2 n P) x1 P ++ List.replicate (n - P) (x1, x1 + step) := by
  rw [integralInfoConstruct_eq hl hn hP, Option.some.injEq] at h
  subst h
  have huseful : ∀ i, P - n ≤ i → i < P → (threadOf x1 x2 step n P i).interval =
      (x1 + ((i - (P - n) : Nat) : ℚ) * deltaX x1 x2 n P,
        x1 + (((i - (P - n) : Nat) : ℚ) + 1) * deltaX x1 x2 n P) := by
    intro i hi hiP
    rw [threadOf, if_neg (by omega), if_pos hiP]
    rfl
  simp only [IntegralInfo.summed, Int.toNat_natCast, List.take_of_length_le, List.length_map,
    List.length_range, Nat.le_refl]
  by_cases hle : n ≤ P
  · rw [if_pos hle]
    refine List.ext_getElem ?_ fun i hi hi' => ?_
    · simp only [List.length_map, List.length_drop, List.length_range, Lib.equalSlices]
      omega
    · have hin : i < n := by simpa [Lib.equalSlices] using hi'
      simp only [List.getElem_map, List.getElem_drop, List.getElem_range, Lib.equalSlices]
      rw [huseful _ (by omega) (by omega), Nat.add_sub_cancel_left]
  · rw [if_neg hle]
    refine List.ext_getElem ?_ fun i hi hi' => ?_
    · simp only [List.length_map, List.length_drop, List.length_range, Lib.equalSlices,
        List.length_append, List.length_replicate]
      omega
    · have hin : i < n := by
        simp only [List.length_map, List.length_drop, List.length_range] at hi
        omega
      have hzero : P - n + i = i := by omega
      simp only [List.getElem_map, List.getElem_drop, List.getElem_range, hzero]
      by_cases hiP : i < P
      · rw [List.getElem_append_left (by simpa [Lib.equalSlices] using hiP),
          huseful i (by omega) hiP]
        simp [Lib.equalSlices, Nat.sub_eq_zero_of_le (show P ≤ n by omega)]
      · rw [List.getElem_append_right (by simp [Lib.equalSlices]; omega),
          List.getElem_replicate, threadOf, if_neg (by omega), if_neg hiP]
        rfl

/-- The intervals tile the whole: in order from one end to the other, and every point once. -/
structure TiledBy (x1 x2 : ℚ) (l : List (ℚ × ℚ)) : Prop where
  inOrder : Lib.Partitions x1 l x2
  once : ∀ x, l.countP (fun s => s.1 ≤ x ∧ x < s.2) = if x1 ≤ x ∧ x < x2 then 1 else 0

theorem partitions_equalSlices {k : Nat} (hk : 1 ≤ k) (hx : x1 < x2) :
    Lib.Partitions x1 (Lib.equalSlices ((x2 - x1) / k) x1 k) x2 := by
  have hk' : (0 : ℚ) < k := by exact_mod_cast hk
  have hend : x1 + (k : ℚ) * ((x2 - x1) / k) = x2 := by field_simp; ring
  have htiles := Lib.tiles_equalSlices ((x2 - x1) / k) x1 k
  rw [hend] at htiles
  exact htiles.partitions (div_pos (sub_pos.mpr hx) hk')

/-- **The partition of the local integrator.** For every number of threads, of processors, and every
    interval and step: the construction succeeds, and the intervals whose sums `main` adds tile the
    whole exactly if there are no more threads than processors. With more threads than processors
    the useful records are the first `P`, and the surplus ones behind them are added as well, though
    the code calls them empty. -/
theorem summed_tile_iff {l : Launch} (hl : l.Plain n P) (hn : 1 ≤ n) (hP : 1 ≤ P)
    (hx : x1 < x2) : ∃ info, integralInfoConstruct l x1 x2 step = some info ∧
      (TiledBy x1 x2 (info.summed.map ThreadInfo.interval) ↔ n ≤ P) := by
  refine ⟨_, integralInfoConstruct_eq hl hn hP, ?_⟩
  rw [summed_intervals hl hn hP (integralInfoConstruct_eq hl hn hP)]
  constructor
  · intro h
    by_contra hle
    have hparts := h.inOrder
    rw [if_neg hle, deltaX, if_neg hle] at hparts
    -- behind the useful intervals the whole is used up, and a surplus one begins at `x1`
    have hrest := (partitions_equalSlices hP hx).of_append hparts
    obtain ⟨k, hk⟩ : ∃ k, n - P = k + 1 := ⟨n - P - 1, by omega⟩
    rw [hk, List.replicate_succ] at hrest
    exact absurd hrest.1 hx.ne
  · intro hle
    rw [if_pos hle, deltaX, if_pos hle]
    have hparts := partitions_equalSlices hn hx
    exact ⟨hparts, fun x => hparts.once x⟩

def twoOnFour : Launch := ⟨2, true, 4, true, fun _ => ⟨0, 0, 0, 0, 0, 0⟩⟩

theorem summed_tile_twoOnFour : ∃ info,
    integralInfoConstruct twoOnFour 0 1 (1 / 10) = some info ∧
      TiledBy 0 1 (info.summed.map ThreadInfo.interval) := by
  have hplain : twoOnFour.Plain 2 4 := ⟨rfl, rfl, rfl, rfl⟩
  obtain ⟨info, hinfo, hiff⟩ := summed_tile_iff hplain (by decide) (by decide) (zero_lt_one' ℚ)
  exact ⟨info, hinfo, hiff.mpr (by decide)⟩

/-- Three threads on two processors: the third adds `[0, 1/10)` again. The record is behind
    `empty_threads`, which is 0. -/
theorem surplus_added : ¬ ∀ (l : Launch) (n P : Nat) (x1 x2 step : ℚ), l.Plain n P → 1 ≤ n →
    1 ≤ P → x1 < x2 → 0 < step → ∀ info, integralInfoConstruct l x1 x2 step = some info →
      TiledBy x1 x2 (info.summed.map ThreadInfo.interval) := by
  intro hall
  have hplain : (⟨3, true, 2, true, fun _ => ⟨0, 0, 0, 0, 0, 0⟩⟩ : Launch).Plain 3 2 :=
    ⟨rfl, rfl, rfl, rfl⟩
  have hzero : (0 : ℚ) < 1 := by norm_num
  have hstep : (0 : ℚ) < 1 / 10 := by norm_num
  have htiled := hall _ 3 2 0 1 (1 / 10) hplain (by decide) (by decide) hzero hstep _
    (integralInfoConstruct_eq hplain (by decide) (by decide))
  have honce := htiled.once 0
  rw [summed_intervals hplain (by decide) (by decide)
    (integralInfoConstruct_eq hplain (by decide) (by decide))] at honce
  norm_num [Lib.equalSlices, deltaX, List.range_succ] at honce

end Construct

end CompTech.Integral
