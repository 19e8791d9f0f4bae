import CompTech.Lib.CacheLine

/-!
# The records of the integrator's threads

`roundup_cache_line_alloc` rounds the size of a record up to whole cache lines and asks for that
many bytes for every thread. The caller gets a `thread_info*` and indexes it: the records stand one
behind the other, 80 bytes from one to the next, and what the rounding added is left over at the
end of the block. So neighbours share a line, unless a record is a whole number of lines as it is.

`_mm_malloc` is a parameter; `size_t` is 64 bits wide and its product wraps.
-/

namespace CompTech.Integral

open Lib

/-- `pthread_t`, `ssize_t` and four `long double`s. -/
def SIZEOF_THREAD_INFO : Nat := 80

/-- `round_up_size` -/
def roundUpSize (sizeCacheLine : Nat) : Nat :=
  if SIZEOF_THREAD_INFO = sizeCacheLine then sizeCacheLine
  else (SIZEOF_THREAD_INFO / sizeCacheLine + 1) * sizeCacheLine

/-- What `_mm_malloc` is asked for. -/
def roundupBytes (sizeCacheLine nmemb : Nat) : Nat := nmemb * roundUpSize sizeCacheLine % 2 ^ 64

/-- `_mm_malloc (size, align)`: an address that is a multiple of `align`, or null. -/
structure MmMalloc where
  alloc : Nat → Nat → Option Nat
  aligned : ∀ {size align p : Nat}, alloc size align = some p → align ∣ p

/-- The allocation of the block. -/
def roundupCacheLineAddress (mm : MmMalloc) (sizeCacheLine nmemb : Nat) : Option Nat :=
  mm.alloc (roundupBytes sizeCacheLine nmemb) sizeCacheLine

/-- `&buf_info_thread[i]` for every `i` below `max_threads`. -/
def recordAddresses (bufInfoThread maxThreads : Nat) : List Int :=
  strided bufInfoThread SIZEOF_THREAD_INFO maxThreads

/-! ## The rounded size -/

theorem roundUpSize_le (L : Nat) : roundUpSize L ≤ SIZEOF_THREAD_INFO + L := by
  unfold roundUpSize
  split
  · omega
  · rw [Nat.succ_mul]
    exact Nat.add_le_add_right (Nat.div_mul_le_self ..) L

theorem le_roundUpSize {L : Nat} (hL : 1 ≤ L) : SIZEOF_THREAD_INFO ≤ roundUpSize L := by
  unfold roundUpSize
  split
  · omega
  · have h := Nat.lt_mul_div_succ SIZEOF_THREAD_INFO hL
    rw [Nat.mul_comm] at h
    exact Nat.le_of_lt h

theorem roundUpSize_of_dvd {L : Nat} (h : L ∣ 80) :
    roundUpSize L = if L = 80 then 80 else 80 + L := by
  unfold roundUpSize SIZEOF_THREAD_INFO
  by_cases hL : L = 80
  · rw [if_pos hL.symm, if_pos hL, hL]
  · rw [if_neg (Ne.symm hL), if_neg hL, Nat.succ_mul, Nat.div_mul_cancel h]

section

variable {mm : MmMalloc} {L m base : Nat}

/-- Records that are whole lines, in a block whose size has not wrapped. -/
theorem laidOut_of_dvd (hL : 1 ≤ L) (hdvd : L ∣ SIZEOF_THREAD_INFO)
    (hfits : m * roundUpSize L < 2 ^ 64) (hbase : L ∣ base) :
    LaidOut L SIZEOF_THREAD_INFO base (roundupBytes L m) (recordAddresses base m) := by
  have hle : m * SIZEOF_THREAD_INFO ≤ m * roundUpSize L := Nat.mul_le_mul_left m (le_roundUpSize hL)
  have hbytes : roundupBytes L m = m * roundUpSize L := Nat.mod_eq_of_lt hfits
  refine laidOut_strided hL (Int.natCast_dvd_natCast.mpr hbase) (Int.natCast_dvd_natCast.mpr hdvd)
    (le_refl _) ?_
  rw [hbytes]
  exact_mod_cast hle

/-- A block that holds the records is as large as was meant. -/
theorem lt_of_inside (hm : 1 ≤ m) (hdvd : L ∣ SIZEOF_THREAD_INFO)
    (h : LaidOut L SIZEOF_THREAD_INFO base (roundupBytes L m) (recordAddresses base m)) :
    m * roundUpSize L < 2 ^ 64 := by
  by_contra hwrap
  obtain ⟨-, hlast⟩ := h.inside (base + (m - 1 : Nat) * SIZEOF_THREAD_INFO)
    (mem_strided.mpr ⟨m - 1, by omega, rfl⟩)
  have hall : m * SIZEOF_THREAD_INFO ≤ roundupBytes L m := by
    unfold SIZEOF_THREAD_INFO at *
    omega
  have hsize : m * roundUpSize L ≤ m * SIZEOF_THREAD_INFO + m * L := by
    rw [← Nat.mul_add]
    exact Nat.mul_le_mul_left m (roundUpSize_le L)
  have hline : m * L ≤ m * SIZEOF_THREAD_INFO :=
    Nat.mul_le_mul_left m (Nat.le_of_dvd (by decide) hdvd)
  unfold roundupBytes at hall
  omega

/-- One record, and no record. -/
theorem laidOut_of_le_one (hL : 1 ≤ L) (hmax : L < 2 ^ 63) (hm : m ≤ 1) :
    LaidOut L SIZEOF_THREAD_INFO base (roundupBytes L m) (recordAddresses base m) := by
  rcases Nat.le_one_iff_eq_zero_or_eq_one.mp hm with rfl | rfl
  · exact ⟨by simp [recordAddresses, strided], by simp [recordAddresses, strided]⟩
  · have hlo := le_roundUpSize hL
    have hhi := roundUpSize_le L
    have hbytes : roundupBytes L 1 = roundUpSize L := by
      unfold roundupBytes
      unfold SIZEOF_THREAD_INFO at hhi
      omega
    have hone : recordAddresses base 1 = [(base : Int)] := by simp [recordAddresses, strided]
    rw [hone, hbytes]
    exact laidOut_singleton (le_refl _) (by omega)

/-- **No line is shared** exactly when there is one record at most, or the records are whole lines
    (and their number does not wrap the size of the block). The block is rounded up as a whole; a
    record is 80 bytes, and the next one begins right behind it. -/
theorem records_laidOut_iff (hL : 1 ≤ L) (hmax : L < 2 ^ 63)
    (halloc : roundupCacheLineAddress mm L m = some base) :
    LaidOut L SIZEOF_THREAD_INFO base (roundupBytes L m) (recordAddresses base m) ↔
      m ≤ 1 ∨ (L ∣ 80 ∧ m * (if L = 80 then 80 else 80 + L) < 2 ^ 64) := by
  have hbase : L ∣ base := mm.aligned halloc
  constructor
  · intro h
    by_cases hm : m ≤ 1
    · exact .inl hm
    · have hdvd : L ∣ SIZEOF_THREAD_INFO := dvd_of_apart_packed hL (by decide)
        (Int.natCast_dvd_natCast.mpr hbase) (by omega) h
      have hfits := lt_of_inside (by omega) hdvd h
      rw [roundUpSize_of_dvd hdvd] at hfits
      exact .inr ⟨hdvd, hfits⟩
  · rintro (hm | ⟨hdvd, hfits⟩)
    · exact laidOut_of_le_one hL hmax hm
    · rw [← roundUpSize_of_dvd hdvd] at hfits
      exact laidOut_of_dvd hL hdvd hfits hbase

end

/-- A block at the address that is one alignment on. -/
def anyMalloc : MmMalloc where
  alloc _ align := some align
  aligned h := dvd_of_eq (Option.some.inj h)

/-- Lines of 16 bytes: a record is five of them. -/
theorem records_laidOut_sixteen :
    LaidOut 16 SIZEOF_THREAD_INFO (16 : Nat) (roundupBytes 16 4) (recordAddresses 16 4) ↔
      4 ≤ 1 ∨ (16 ∣ 80 ∧ 4 * (if 16 = 80 then 80 else 80 + 16) < 2 ^ 64) :=
  records_laidOut_iff (by decide) (by decide)
    (show roundupCacheLineAddress anyMalloc 16 4 = _ from rfl)

/-- Two threads on a machine with lines of 64 bytes. -/
theorem records_share_line :
    roundupCacheLineAddress anyMalloc 64 2 = some 64 ∧
    ¬ LaidOut 64 SIZEOF_THREAD_INFO (64 : Nat) (roundupBytes 64 2) (recordAddresses 64 2) := by
  refine ⟨rfl, fun h => ?_⟩
  have hdvd : 64 ∣ SIZEOF_THREAD_INFO :=
    dvd_of_apart_packed (by decide) (by decide) (by decide) (by decide) h
  exact absurd hdvd (by decide)

end CompTech.Integral
