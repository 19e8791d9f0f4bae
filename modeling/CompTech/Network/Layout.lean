import CompTech.Lib.CInt
import CompTech.Lib.CacheLine

/-!
# The records of the worker's threads

`build_cache_aligned_thread_info` gives every thread a record of its own lines: the size of a record
is rounded up to whole cache lines, and always to more than it is, and the block begins at a page.
Size and offsets are computed in `int`. The product of the number of threads and the size of a
record wraps at 2³¹, and when it comes out positive again the block is too small for the records.

`memalign` and `malloc` are parameters. Arithmetic in `int` wraps.

The block is sound exactly as long as the true product fits an `int` (`infos_laidOut_iff`). Where it
does not, the wrapped product may be small and positive, or zero, and then the address of a record
is computed behind the block; a negative product is refused by `memalign`.
-/

namespace CompTech.Network

open Lib

/-- No object is larger. -/
def PTRDIFF_MAX : Nat := 2 ^ 63 - 1

/-- What the two allocators answer: an address, and whether there is a block. -/
structure Heap where
  memalign : Nat → Nat → Option Nat
  malloc : Nat → Bool
  -- `memalign` gives an aligned address
  aligned : ∀ {alignment size p : Nat}, memalign alignment size = some p → alignment ∣ p
  -- and refuses what is too large
  bounded : ∀ {alignment size p : Nat}, memalign alignment size = some p → size ≤ PTRDIFF_MAX

/-- Three `double`s and a function. -/
def SIZEOF_THREAD_INFO : Nat := 32

/-- A pointer of `infosp`. -/
def SIZEOF_POINTER : Nat := 8

/-- `int` to `size_t`. -/
def asSize (v : Int) : Nat := (v % 2 ^ 64).toNat

/-- `one_info_size` before it is an `int`. -/
def roundedSize (cacheLineSize : Nat) : Nat :=
  (SIZEOF_THREAD_INFO / cacheLineSize + 1) * cacheLineSize

/-- `one_info_size`, an `int`. -/
def oneInfoSize (cacheLineSize : Nat) : Int := asInt (roundedSize cacheLineSize)

/-- What `memalign` is asked for. -/
def infoBytes (cacheLineSize : Nat) (nThreads : Int) : Nat :=
  asSize (asInt (nThreads * oneInfoSize cacheLineSize))

/-- What the loop puts into `infosp`: the addresses of the records. -/
def infoAddresses (alignedMem cacheLineSize : Nat) (nThreads : Int) : List Int :=
  (List.range nThreads.toNat).map fun (i : Nat) =>
    (alignedMem : Int) + asInt (i * oneInfoSize cacheLineSize)

/-- `build_cache_aligned_thread_info`, with the addresses it stores into `infosp`. -/
def buildCacheAlignedThreadInfo (heap : Heap) (cacheLineSize pageSize : Nat) (nThreads : Int) :
    Option (List Int) := do
  let alignedMem ← heap.memalign pageSize (infoBytes cacheLineSize nThreads)
  if heap.malloc (asSize (SIZEOF_POINTER * nThreads)) then
    some (infoAddresses alignedMem cacheLineSize nThreads)
  else none

/-- Every record is in the block that came from `memalign`, and no two share a line. -/
def InfosLaidOut (heap : Heap) (cacheLineSize pageSize : Nat) (nThreads : Int)
    (infosp : List Int) : Prop :=
  ∃ alignedMem, heap.memalign pageSize (infoBytes cacheLineSize nThreads) = some alignedMem ∧
    infosp.length = nThreads ∧
    LaidOut cacheLineSize SIZEOF_THREAD_INFO alignedMem (infoBytes cacheLineSize nThreads) infosp

/-! ## The size of a record -/

theorem dvd_roundedSize (L : Nat) : L ∣ roundedSize L := Nat.dvd_mul_left ..

theorem lt_roundedSize {L : Nat} (hL : 1 ≤ L) : SIZEOF_THREAD_INFO < roundedSize L := by
  have h := Nat.lt_mul_div_succ SIZEOF_THREAD_INFO hL
  rwa [Nat.mul_comm] at h

theorem roundedSize_of_lt {L : Nat} (h : SIZEOF_THREAD_INFO < L) : roundedSize L = L := by
  rw [roundedSize, Nat.div_eq_of_lt h, Nat.zero_add, Nat.one_mul]

theorem roundedSize_le (L : Nat) : roundedSize L ≤ SIZEOF_THREAD_INFO + L := by
  rw [roundedSize, Nat.succ_mul]
  exact Nat.add_le_add_right (Nat.div_mul_le_self ..) L

theorem asSize_of_nonneg {v : Int} (h : 0 ≤ v) (h' : v < 2 ^ 64) : asSize v = v := by
  unfold asSize
  omega

/-- A negative number of bytes is more than there is. -/
theorem nonneg_of_asSize {v : Int} (hv : -2 ^ 31 ≤ v) (h : asSize v ≤ PTRDIFF_MAX) : 0 ≤ v := by
  unfold asSize PTRDIFF_MAX at h
  omega

section

variable {heap : Heap} {L P base : Nat} {n : Int} {infosp : List Int}

/-- What is known of a call that returns records. -/
theorem build_cases (hbuild : buildCacheAlignedThreadInfo heap L P n = some infosp) :
    ∃ base, heap.memalign P (infoBytes L n) = some base ∧
      infosp = infoAddresses base L n := by
  obtain ⟨base, hbase, h⟩ := Option.bind_eq_some_iff.mp hbuild
  refine ⟨base, hbase, ?_⟩
  split at h
  · exact (Option.some.inj h).symm
  · exact absurd h (by simp)

theorem infosLaidOut_iff (hbase : heap.memalign P (infoBytes L n) = some base) (hn : 0 ≤ n) :
    InfosLaidOut heap L P n (infoAddresses base L n) ↔
      LaidOut L SIZEOF_THREAD_INFO base (infoBytes L n) (infoAddresses base L n) := by
  constructor
  · rintro ⟨base', hbase', -, h⟩
    obtain rfl : base = base' := Option.some.inj (hbase.symm.trans hbase')
    exact h
  · intro h
    refine ⟨base, hbase, ?_, h⟩
    rw [infoAddresses, List.length_map, List.length_range, Int.toNat_of_nonneg hn]

theorem bytes_nonneg (hbase : heap.memalign P (infoBytes L n) = some base) :
    0 ≤ asInt (n * oneInfoSize L) :=
  nonneg_of_asSize (asInt_range _).1 (heap.bounded hbase)

theorem infoBytes_eq (hbase : heap.memalign P (infoBytes L n) = some base) :
    (infoBytes L n : Int) = asInt (n * oneInfoSize L) := by
  have hnonneg := bytes_nonneg hbase
  have hrange := asInt_range (n * oneInfoSize L)
  exact asSize_of_nonneg hnonneg (by omega)

theorem oneInfoSize_eq (hs : (roundedSize L : Int) < 2 ^ 31) : oneInfoSize L = roundedSize L :=
  asInt_eq_self_iff.mpr ⟨by omega, hs⟩

/-- Nothing wraps. -/
theorem laidOut_of_lt (hL : 1 ≤ L) (hdvd : L ∣ P) (hn : 1 ≤ n) (hlt : n * roundedSize L < 2 ^ 31)
    (hbase : heap.memalign P (infoBytes L n) = some base) :
    LaidOut L SIZEOF_THREAD_INFO base (infoBytes L n) (infoAddresses base L n) := by
  have hle : ∀ k : Int, 0 ≤ k → k ≤ n → 0 ≤ k * roundedSize L ∧ k * roundedSize L < 2 ^ 31 := by
    intro k hk hkn
    have h := Int.mul_le_mul_of_nonneg_right hkn (Int.natCast_nonneg (roundedSize L))
    exact ⟨Int.mul_nonneg hk (by omega), by omega⟩
  have hone := (hle 1 (by omega) hn).2
  rw [Int.one_mul] at hone
  have hsize : oneInfoSize L = roundedSize L := oneInfoSize_eq hone
  have hbytes : (infoBytes L n : Int) = n * roundedSize L := by
    rw [infoBytes_eq hbase, hsize, asInt_eq_self_iff]
    have h := hle n (by omega) (le_refl n)
    omega
  have hmap : infoAddresses base L n = strided base (roundedSize L) n.toNat := by
    refine List.map_congr_left fun i hi => ?_
    have hi' : i < n.toNat := List.mem_range.mp hi
    have h := hle i (by omega) (by omega)
    rw [hsize, asInt_eq_self_iff.mpr ⟨by omega, h.2⟩]
  rw [hmap]
  have hpos := lt_roundedSize hL
  refine laidOut_strided hL ?_ (Int.natCast_dvd_natCast.mpr (dvd_roundedSize L)) (by omega) ?_
  · exact Int.natCast_dvd_natCast.mpr (hdvd.trans (heap.aligned hbase))
  · rw [hbytes, Int.toNat_of_nonneg (by omega)]

/-- The number of bytes has wrapped: the first record that would begin behind the block is not in
    it, whether its own offset has wrapped or not. -/
theorem not_laidOut_of_wrap (hL : 1 ≤ L) (hn : 1 ≤ n) (hs : (roundedSize L : Int) < 2 ^ 31)
    (hge : 2 ^ 31 ≤ n * roundedSize L) (hbase : heap.memalign P (infoBytes L n) = some base) :
    ¬ LaidOut L SIZEOF_THREAD_INFO base (infoBytes L n) (infoAddresses base L n) := by
  intro h
  have hpos := lt_roundedSize hL
  obtain ⟨size, hsize⟩ : ∃ size : Int, size = roundedSize L := ⟨_, rfl⟩
  have hone : oneInfoSize L = size := (oneInfoSize_eq hs).trans hsize.symm
  have hnonneg := bytes_nonneg hbase
  have hbytes := infoBytes_eq hbase
  rw [hone] at hnonneg hbytes
  rw [← hsize] at hs hge
  obtain ⟨bytes, hdef⟩ : ∃ bytes, bytes = asInt (n * size) := ⟨_, rfl⟩
  have hrange := hdef ▸ asInt_range (n * size)
  rw [← hdef] at hnonneg hbytes
  have hlong : bytes + 2 ^ 32 ≤ n * size := by
    obtain ⟨q, hq⟩ := asInt_add_mul (n * size)
    omega
  -- `k` is the number of records that begin in the block
  obtain ⟨k, hk⟩ : ∃ k, k = (bytes + size - 1) / size := ⟨_, rfl⟩
  have hdiv := Int.ediv_mul_add_emod (bytes + size - 1) size
  have hmod := Int.emod_lt_of_pos (bytes + size - 1) (show 0 < size by omega)
  have hmod₀ := Int.emod_nonneg (bytes + size - 1) (show size ≠ 0 by omega)
  rw [← hk] at hdiv
  have hk₀ : 0 ≤ k := hk ▸ Int.ediv_nonneg (by omega) (by omega)
  have hkn : k < n := Int.lt_of_mul_lt_mul_right (a := size) (by omega) (by omega)
  obtain ⟨i, rfl⟩ : ∃ i : Nat, k = i := ⟨k.toNat, (Int.toNat_of_nonneg hk₀).symm⟩
  obtain ⟨hlo, hhi⟩ := h.inside _ (List.mem_map.mpr ⟨i, List.mem_range.mpr (by omega), rfl⟩)
  rw [hone] at hlo hhi
  rw [hbytes] at hhi
  have hwrap : asInt (i * size) < 0 ∨ bytes ≤ asInt (i * size) := by
    unfold asInt
    omega
  unfold SIZEOF_THREAD_INFO at hhi
  omega

/-- The size of a record does not fit an `int`: then the line is that long, and there is one record
    at most. -/
theorem laidOut_huge_iff (hdvd : L ∣ P) (hn : 1 ≤ n) (hs : 2 ^ 31 ≤ (L : Int))
    (hbase : heap.memalign P (infoBytes L n) = some base) :
    LaidOut L SIZEOF_THREAD_INFO base (infoBytes L n) (infoAddresses base L n) ↔
      n = 1 ∧ SIZEOF_THREAD_INFO ≤ asInt L := by
  have hround : oneInfoSize L = asInt L := by
    rw [oneInfoSize, roundedSize_of_lt (by unfold SIZEOF_THREAD_INFO; omega)]
  have hbytes := infoBytes_eq hbase
  have hrange := asInt_range L
  have hidem : ∀ v, asInt (asInt v) = asInt v := fun v => asInt_eq_self_iff.mpr (asInt_range v)
  have hzero : (base : Int) + asInt ((0 : Nat) * asInt L) = base := by
    rw [Int.natCast_zero, Int.zero_mul, asInt_eq_self_iff.mpr ⟨by omega, by omega⟩, Int.add_zero]
  rw [hround] at hbytes
  rw [infoAddresses, hround]
  constructor
  · intro h
    have hinside : ∀ i : Nat, i < n.toNat → (base : Int) ≤ base + asInt (i * asInt L) ∧
        (base : Int) + asInt (i * asInt L) + SIZEOF_THREAD_INFO ≤ base + infoBytes L n :=
      fun i hi => h.inside _ (List.mem_map.mpr ⟨i, List.mem_range.mpr hi, rfl⟩)
    have hone : n = 1 := by
      by_contra hne
      have hget : ∀ i : Nat, i < n.toNat → ((List.range n.toNat).map fun (i : Nat) =>
          (base : Int) + asInt (i * asInt L))[i]? = some ((base : Int) + asInt (i * asInt L)) := by
        intro i hi
        rw [List.getElem?_map, List.getElem?_range hi]
        rfl
      refine h.apart 0 1 _ _ (hget 0 (by omega)) (hget 1 (by omega)) (by omega) ?_
      have hfirst := hinside 1 (by omega)
      rw [Int.natCast_one, Int.one_mul, hidem] at hfirst
      rw [hzero, Int.natCast_one, Int.one_mul, hidem]
      exact sharesLine_of_lt (by decide)
        (Int.natCast_dvd_natCast.mpr (hdvd.trans (heap.aligned hbase))) hfirst.1 (by omega)
    have hlast := (hinside 0 (by omega)).2
    rw [hzero, hbytes, hone, Int.one_mul, hidem] at hlast
    exact ⟨hone, by omega⟩
  · rintro ⟨rfl, hsize⟩
    rw [Int.one_mul, hidem] at hbytes
    have hmap : ((List.range (1 : Int).toNat).map fun (i : Nat) =>
        (base : Int) + asInt (i * asInt L)) = [(base : Int)] := by
      simpa using hzero
    rw [hmap]
    exact laidOut_singleton (le_refl _) (by omega)

/-- **Where the records are apart**: the bytes of all of them fit an `int`. (Or there is one record,
    and a line so long that its length is taken for a smaller one.) The records are apart by
    construction, since their size is a multiple of the line and larger than a record; what can go
    wrong is that the product wraps and the block is too small. -/
theorem infos_laidOut_iff (hL : 1 ≤ L) (hdvd : L ∣ P) (hn : 1 ≤ n)
    (hbuild : buildCacheAlignedThreadInfo heap L P n = some infosp) :
    InfosLaidOut heap L P n infosp ↔
      n * ((32 / L + 1) * L : Nat) < 2 ^ 31 ∨ (n = 1 ∧ 2 ^ 31 ≤ L ∧ 32 ≤ asInt L) := by
  obtain ⟨base, hbase, rfl⟩ := build_cases hbuild
  rw [infosLaidOut_iff hbase (by omega)]
  show _ ↔ n * (roundedSize L : Int) < 2 ^ 31 ∨ _
  have hpos := lt_roundedSize hL
  by_cases hs : (roundedSize L : Int) < 2 ^ 31
  · have hL' : ¬ 2 ^ 31 ≤ L := fun h => by
      rw [roundedSize_of_lt (by unfold SIZEOF_THREAD_INFO; omega)] at hs
      omega
    by_cases hlt : n * (roundedSize L : Int) < 2 ^ 31
    · exact iff_of_true (laidOut_of_lt hL hdvd hn hlt hbase) (.inl hlt)
    · refine iff_of_false (not_laidOut_of_wrap hL hn hs (by omega) hbase) ?_
      rintro (h | ⟨-, h, -⟩)
      · exact hlt h
      · exact hL' h
  · have hround := roundedSize_le L
    have hL' : roundedSize L = L := roundedSize_of_lt (by unfold SIZEOF_THREAD_INFO at *; omega)
    rw [hL'] at hs ⊢
    have hlong : (L : Int) ≤ n * L := by
      have h := Int.mul_le_mul_of_nonneg_right hn (Int.natCast_nonneg L)
      omega
    rw [laidOut_huge_iff hdvd hn (by omega) hbase]
    constructor
    · exact fun h => .inr ⟨h.1, by omega, h.2⟩
    · rintro (h | ⟨hone, -, hsize⟩)
      · omega
      · exact ⟨hone, hsize⟩

end

/-- A heap with room for whatever may be asked for. -/
def roomyHeap : Heap where
  memalign alignment size := if size ≤ PTRDIFF_MAX then some alignment else none
  malloc _ := true
  aligned h := by
    split at h
    · exact dvd_of_eq (Option.some.inj h)
    · exact absurd h (by simp)
  bounded h := by
    split at h
    · assumption
    · exact absurd h (by simp)

/-- Two threads on a machine with lines of 64 bytes. -/
theorem infos_laidOut_two :
    InfosLaidOut roomyHeap 64 4096 2 [4096, 4160] ↔
      (2 : Int) * ((32 / 64 + 1) * 64 : Nat) < 2 ^ 31 ∨
        ((2 : Int) = 1 ∧ 2 ^ 31 ≤ 64 ∧ 32 ≤ asInt (64 : Nat)) :=
  infos_laidOut_iff (by decide) (by decide) (by decide) (by decide)

/-- 2²⁶ records of 64 bytes: the product is 2³² and wraps to 0, and a block of no bytes is there. -/
theorem infos_laidOut_wrapped :
    ∃ infosp, buildCacheAlignedThreadInfo roomyHeap 64 4096 67108864 = some infosp ∧
      ¬ InfosLaidOut roomyHeap 64 4096 67108864 infosp := by
  have hbase : roomyHeap.memalign 4096 (infoBytes 64 67108864) = some 4096 := by decide
  refine ⟨infoAddresses 4096 64 67108864, ?_, ?_⟩
  · rw [buildCacheAlignedThreadInfo, hbase]
    rfl
  · rw [infosLaidOut_iff hbase (by decide)]
    exact not_laidOut_of_wrap (by decide) (by decide) (by decide) (by decide) hbase

end CompTech.Network
