import CompTech.BitArray.Vector

/-!
# The calls that are always right

Whether the code answers a call as the vector does depends, by `agree_iff`, on what the array
holds. `Call.Plain` does not look at the contents: it names the calls on which an array of `n`
bits is right whatever it holds. `plain_iff` says that these are all of them, since every vector
is represented by some array (`exists_represents`), and each of the other calls has contents
that show its mask.
-/

namespace CompTech.BitArray

open Lib (BitVector Service)

/-- Single-bit calls below the sign bit of the `int` (reading and clearing also at it, when it is
    the last position); regions of whole words; searches from the beginning of a word; `foreach`
    over no more positions than the `int` has bits; `length`.

    The degenerate calls are plain as well: a single-bit call at or beyond the size, which only
    grows the vector (at the size itself by nothing); an empty region, wherever it begins; a
    search from beyond the size, which finds nothing. A search from the size itself is out of
    scope. -/
def Call.Plain (n : Nat) : Call → Prop
  | .setBit index | .toggleBit index => index.toNat < n → index.toNat % 64 < 31
  | .clearBit index | .getBit index => index.toNat < n →
      index.toNat % 64 < 31 ∨ index.toNat % 64 = 31 ∧ index.toNat + 1 = n
  | .setRegion start len | .clearRegion start len | .toggleRegion start len =>
      len.toNat = 0 ∨ start.toNat % 64 = 0 ∧ (start.toNat + len.toNat) % 64 = 0
  | .findSetBit start | .findClearBit start => start.toNat < n → start.toNat % 64 = 0
  | .foreach _ _ => n ≤ 32
  | .length => True

/-! ## Every vector is represented -/

/-- Word `j` of the buffer that holds `v`. -/
def wordOf (v : BitVector) (j : Nat) : Word := BitVec.ofFnLE fun k : Fin 64 => v.bit (64 * j + k)

theorem getLsbD_wordOf {v : BitVector} {j k : Nat} (hk : k < 64) :
    (wordOf v j).getLsbD k = v.bit (64 * j + k) := by
  simp [wordOf, hk]

/-- An array of exactly the words it needs. -/
def arrayOf (v : BitVector) : MyBitArray :=
  let words := (v.size + 63) / 64
  ⟨BitVec.ofNat 64 v.size, BitVec.ofNat 64 words, BitVec.ofNat 64 words,
    (List.range words).map (wordOf v)⟩

theorem bit_arrayOf {v : BitVector} {i : Nat} (hi : i < 64 * ((v.size + 63) / 64)) :
    (arrayOf v).bit i = v.bit i := by
  have hword : i / 64 < (v.size + 63) / 64 := by omega
  have hk : i % 64 < 64 := Nat.mod_lt _ (by omega)
  have hplace : 64 * (i / 64) + i % 64 = i := Nat.div_add_mod i 64
  rw [MyBitArray.bit, arrayOf, List.getD_eq_getElem?_getD, List.getElem?_map,
    List.getElem?_range hword, Option.map_some, Option.getD_some, getLsbD_wordOf hk, hplace]

theorem exists_represents {v : BitVector} (hv : v.size + 63 < 2 ^ 64) :
    ∃ a, Represents a v := by
  have hbits : (arrayOf v).numOfBits.toNat = v.size := by
    show (BitVec.ofNat 64 v.size).toNat = v.size
    rw [BitVec.toNat_ofNat]
    omega
  have hwords : (BitVec.ofNat 64 ((v.size + 63) / 64)).toNat = (v.size + 63) / 64 := by
    rw [BitVec.toNat_ofNat]
    omega
  have hok : (arrayOf v).WordsOk := by
    refine ⟨?_, Nat.le_refl _, ?_⟩
    · rw [hbits]
      exact hwords
    · show (BitVec.ofNat 64 ((v.size + 63) / 64)).toNat ≤ (arrayOf v).buffBits.length
      rw [hwords, arrayOf, List.length_map, List.length_range]
  refine ⟨arrayOf v, ⟨hok, fun i hlo hhi => ?_⟩, hbits, fun i hi => bit_arrayOf (by omega)⟩
  rw [hbits] at hlo
  rw [show (arrayOf v).capacity.toNat = _ from hwords] at hhi
  rw [bit_arrayOf hhi, BitVector.bit_of_le hlo]

/-! ## Plain calls agree -/

variable {n : Nat} {index start len : Word} {v : BitVector}

theorem oneTouched_of_low {i j : Nat} (hi : i % 64 < 31) : OneTouched i j ↔ j = i := by
  unfold OneTouched
  omega

/-- At the sign bit of the last position the mask covers nothing else of the vector. -/
theorem oneTouched_of_last {i j : Nat} (hi : i % 64 = 31) (hj : j < i + 1) :
    OneTouched i j ↔ j = i := by
  unfold OneTouched
  omega

theorem findsWell_of_wordStart {b : Bool} {i : Nat} (hi : i % 64 = 0) : FindsWell b v i :=
  ⟨fun j hlo hlt _ => by omega, fun j _ _ _ hhidden => absurd (fun _ => by omega) hhidden⟩

theorem Call.Plain.agrees {c : Call} (hc : c.Plain v.size) : c.Agrees v := by
  cases c with
  | setBit index =>
    exact fun hlt => ⟨(hc hlt).trans (by omega), fun i _ => oneTouched_of_low (hc hlt)⟩
  | toggleBit index =>
    exact fun hlt => ⟨(hc hlt).trans (by omega), fun i => oneTouched_of_low (hc hlt)⟩
  | clearBit index =>
    intro hlt
    rcases hc hlt with hlow | ⟨hsign, hlast⟩
    · exact ⟨by omega, fun i _ => oneTouched_of_low hlow⟩
    · exact ⟨by omega, fun i hi => oneTouched_of_last hsign (hlast ▸ BitVector.lt_of_bit hi)⟩
  | getBit index =>
    intro hlt
    have heach : ∀ i, v.bit i = true → (OneTouched index.toNat i ↔ i = index.toNat) := by
      rcases hc hlt with hlow | ⟨hsign, hlast⟩
      · exact fun i _ => oneTouched_of_low hlow
      · exact fun i hi => oneTouched_of_last hsign (hlast ▸ BitVector.lt_of_bit hi)
    refine ⟨by have := hc hlt; omega, fun ⟨i, ht, hi⟩ => ?_, fun hi => ?_⟩
    · exact (heach i hi).mp ht ▸ hi
    · exact ⟨_, (heach _ hi).mpr rfl, hi⟩
  | setRegion start len => exact fun i _ => touched_iff_asked.mpr hc i
  | clearRegion start len => exact fun i _ => touched_iff_asked.mpr hc i
  | toggleRegion start len => exact touched_iff_asked.mpr hc
  | findSetBit start => exact fun hlt => findsWell_of_wordStart (hc hlt)
  | findClearBit start => exact fun hlt => findsWell_of_wordStart (hc hlt)
  | foreach func data => exact hc
  | length => trivial

/-! ## The others have contents that show the mask -/

/-- From the sign bit on the mask covers the next position as well. -/
theorem oneTouched_succ {i : Nat} (hi : i % 64 = 31) : OneTouched i (i + 1) := by
  unfold OneTouched
  omega

/-- The positions of the region alone show a mask that is not made of whole words. -/
theorem wholeWords_of_touched {p k : Nat} (h : ∀ i, i < p + k → (Touched p k i ↔ Asked p k i)) :
    k = 0 ∨ p % 64 = 0 ∧ (p + k) % 64 = 0 := by
  by_cases hk : k = 0
  · exact .inl hk
  right
  have hstart := h p (by omega)
  have hbottom := h (64 * (p / 64)) (by omega)
  have hlast := h (64 * ((p + k - 1) / 64)) (by omega)
  unfold Touched Asked at hstart hbottom hlast
  dsimp only at hstart hbottom hlast
  split at hstart <;> rename_i hsame
  · -- one word: the position `p` itself is covered
    omega
  · -- the bottoms of the first and of the last word are covered
    rw [if_neg hsame] at hbottom hlast
    omega

/-- One match at the beginning of the word of `start` is found from anywhere in the word. -/
theorem wordStart_of_findsWell {b : Bool} {k : Nat} (hk : k < n)
    (h : ∀ v : BitVector, v.size = n → FindsWell b v k) : k % 64 = 0 := by
  by_contra hne
  have hbit : (BitVector.ofPred n fun i => decide (i = 64 * (k / 64)) = b).bit (64 * (k / 64)) =
      b := by
    rw [BitVector.bit_ofPred (by omega), decide_eq_true rfl]
    cases b <;> rfl
  refine (h _ rfl).front (64 * (k / 64)) (Nat.le_refl _) (by omega) hbit fun _ => ?_
  omega

theorem Call.plain_of_agrees {c : Call} {h : Heap} (hscope : Request.InScope n ⟨c, h⟩)
    (hall : ∀ v : BitVector, v.size = n → c.Agrees v) : c.Plain n := by
  cases c with
  | setBit index =>
    intro hlt
    obtain ⟨hlow, heach⟩ := hall (BitVector.zeros n) rfl hlt
    by_contra hge
    have hnext := (heach (index.toNat + 1) BitVector.bit_zeros).mp
      (oneTouched_succ (by omega))
    omega
  | toggleBit index =>
    intro hlt
    obtain ⟨hlow, heach⟩ := hall (BitVector.zeros n) rfl hlt
    by_contra hge
    have hnext := (heach (index.toNat + 1)).mp (oneTouched_succ (by omega))
    omega
  | clearBit index =>
    intro hlt
    obtain ⟨hlow, heach⟩ := hall (.ofPred n fun i => i = index.toNat + 1) rfl hlt
    by_contra hge
    have hbit : (BitVector.ofPred n fun i => i = index.toNat + 1).bit (index.toNat + 1) = true := by
      rw [BitVector.bit_ofPred (by omega)]
      exact decide_eq_true rfl
    have hnext := (heach (index.toNat + 1) hbit).mp (oneTouched_succ (by omega))
    omega
  | getBit index =>
    intro hlt
    obtain ⟨hlow, hiff⟩ := hall (.ofPred n fun i => i = index.toNat + 1) rfl hlt
    by_contra hge
    have hbit : (BitVector.ofPred n fun i => i = index.toNat + 1).bit (index.toNat + 1) = true := by
      rw [BitVector.bit_ofPred (by omega)]
      exact decide_eq_true rfl
    have hread := hiff.mp ⟨_, oneTouched_succ (by omega), hbit⟩
    rw [BitVector.bit_ofPred hlt, decide_eq_true_iff] at hread
    omega
  | setRegion start len =>
    refine touched_iff_asked.mp fun i => hall (BitVector.zeros n) rfl i BitVector.bit_zeros
  | clearRegion start len =>
    refine wholeWords_of_touched fun i hi => hall (.ofPred n fun _ => True) rfl i ?_
    rw [BitVector.bit_ofPred (hi.trans_le hscope.2)]
    exact decide_eq_true trivial
  | toggleRegion start len => exact touched_iff_asked.mp (hall (BitVector.zeros n) rfl)
  | findSetBit start | findClearBit start =>
    exact fun hlt => wordStart_of_findsWell hlt fun v hv => hall v hv (hv ▸ hlt)
  | foreach func data => exact hall (BitVector.zeros n) rfl
  | length => trivial

/-- **The calls that are always right.** In scope, a call agrees with the vector at every array of
    `n` bits exactly if it is plain. -/
theorem plain_iff (hn : n + 63 < 2 ^ 64) {q : Request} (hq : q.InScope n) :
    (∀ a v, Represents a v → v.size = n → Agree a v q) ↔ q.call.Plain n := by
  constructor
  · refine fun hall => Call.plain_of_agrees (h := q.heap) hq fun v hv => ?_
    obtain ⟨a, ha⟩ := exists_represents (v := v) (hv ▸ hn)
    exact (agree_iff ha (hv ▸ hq)).mp (hall a v ha hv)
  · intro hplain a v ha hv
    subst hv
    exact (agree_iff ha hq).mpr hplain.agrees

/-- `bit_array_clear_bit (ba, 95)` on 96 bits: the sign bit of the `int`, at the last position. -/
theorem plain_clear_last :
    (∀ a v, Represents a v → v.size = 96 → Agree a v ⟨.clearBit 95, quietHeap⟩) ↔
      Call.Plain 96 (.clearBit 95) :=
  plain_iff (q := ⟨.clearBit 95, quietHeap⟩) (by decide) ⟨rfl, fun _ => by decide⟩

end CompTech.BitArray
