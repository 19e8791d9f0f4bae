import CompTech.Lib.BitVector
import CompTech.Lib.Service
import CompTech.BitArray.Find
import CompTech.BitArray.Growth

/-!
# The bit array as a vector of bits

What the interface is for: a vector of bits that is read, written, searched and visited, and that
grows when an index is at or beyond its size. `answer` is that service over `Lib.BitVector`, and
`reply` the one over the code, with its real mask. An array `Represents` a vector if it is tidy
and holds its bits.

The two do not agree on every request. Every writing call lays a mask on the words, and reads go
through the same masks: `OneTouched` and `Touched` are the positions they cover, and a call is
right where the positions that are covered wrongly do not matter to it. `Call.Agrees` says that of
the vector alone. `agree_iff` is one request, and `replies_iff` all lists of requests on a
constructed array.

For every kind of call there is one equivalence (`agree_single_iff`, `agree_region_iff`,
`agree_getBit_iff`, `agree_find_iff`, `agree_foreach_iff`). The way there is the same each time:
what the code leaves or answers is said position by position, so is what the vector does, and the
two are compared. For the writes that comparison is `represents_update_iff`.
-/

namespace CompTech.BitArray

open Lib (BitVector Service)
open MyBitArray

/-! ## What the calls are for

The service in its own terms. Nothing of words, capacities or masks is left in `answer`; a vector is
its size and its ones. -/

/-- What a call gives back: nothing, the `int` of `bit_array_get_bit`, the `char` and `*result` of
    a find function, the sum and the data of `bit_array_foreach`, a length. -/
inductive Reply : Type 1
  | done
  | bit (b : Nat)
  | found (position : Option Nat)
  | folded {δ : Type} (total : Int) (data : δ)
  | length (n : Nat)

/-- A call, and the allocator it meets. -/
structure Request : Type 1 where
  call : Call
  heap : Heap

/-- The one bit combined with a one, where there is such a bit; else the vector grows up to the
    index, which stays out of range. -/
def single (f : Bool → Bool → Bool) (v : BitVector) (i : Nat) : BitVector :=
  if i < v.size then v.update f (· = i) else v.grow i

/-- One visit of `bit_array_foreach`: the bit and the data go to the callback. -/
def visit {δ : Type} (func : Nat → δ → Int × δ) (x : Int × δ) (b : Bool) : Int × δ :=
  let r := func b.toNat x.2
  (x.1 + r.1, r.2)

/-- The service. Every request is defined. -/
def answer : Service BitVector Request Reply := fun v q =>
  some <| match q.call with
  | .setBit i => (.done, single or v i.toNat)
  | .clearBit i => (.done, single (fun x y => x && !y) v i.toNat)
  | .toggleBit i => (.done, single xor v i.toNat)
  | .getBit i => (.bit (v.bit i.toNat).toNat, if i.toNat < v.size then v else v.grow i.toNat)
  | .setRegion start len => (.done, v.update or (Asked start.toNat len.toNat))
  | .clearRegion start len => (.done, v.update (fun x y => x && !y) (Asked start.toNat len.toNat))
  | .toggleRegion start len => (.done, v.update xor (Asked start.toNat len.toNat))
  | .findSetBit start => (.found (v.next true start.toNat), v)
  | .findClearBit start => (.found (v.next false start.toNat), v)
  | .foreach func data =>
    let r := v.fold (visit func) (0, data)
    (.folded r.1 r.2, v)
  | .length => (.length v.size, v)

/-- The service of the code. -/
def reply : Service MyBitArray Request Reply := fun a q =>
  match q.call with
  | .setBit i => (bitArraySetBit shlOne q.heap a i).map fun b => (.done, b)
  | .clearBit i => (bitArrayClearBit shlOne q.heap a i).map fun b => (.done, b)
  | .toggleBit i => (bitArrayToggleBit shlOne q.heap a i).map fun b => (.done, b)
  | .getBit i => (bitArrayGetBit shlOne q.heap a i).map fun r => (.bit r.1, r.2)
  | .setRegion start len => (bitArraySetRegion a start len).map fun b => (.done, b)
  | .clearRegion start len => (bitArrayClearRegion a start len).map fun b => (.done, b)
  | .toggleRegion start len => (bitArrayToggleRegion a start len).map fun b => (.done, b)
  | .findSetBit start =>
    (bitArrayFindSetBit a start).map fun r => (.found (r.map BitVec.toNat), a)
  | .findClearBit start =>
    (bitArrayFindClearBit a start).map fun r => (.found (r.map BitVec.toNat), a)
  | .foreach func data =>
    (bitArrayForeach shlOne q.heap func a data).map fun r => (.folded r.1 r.2.1, r.2.2)
  | .length => some (.length (bitArrayLength a).toNat, a)

/-- The array holds the vector, and nothing behind it. -/
structure Represents (a : MyBitArray) (v : BitVector) : Prop extends Tidy a where
  size : a.numOfBits.toNat = v.size
  bits : ∀ i, i < v.size → a.bit i = v.bit i

/-! ## Where they agree

`Represents` ties the two states together and `Agrees` is the condition on a request. It is stated
of the vector, so that a caller who knows the vector can check it. -/

/-- The positions `1 << (index % 64)` covers: the index, and from the sign bit of the `int` on the
    rest of the word. -/
def OneTouched (index i : Nat) : Prop :=
  i / 64 = index / 64 ∧ (i = index ∨ index % 64 = 31 ∧ 31 ≤ i % 64)

instance (index i : Nat) : Decidable (OneTouched index i) :=
  inferInstanceAs (Decidable (_ ∧ _))

/-- A find function from `start` on is not misled by its mask (compare `Unharmed`). -/
structure FindsWell (b : Bool) (v : BitVector) (start : Nat) : Prop where
  front : ∀ i, 64 * (start / 64) ≤ i → i < start → v.bit i = b → ¬Visible start i
  hidden : ∀ i, start ≤ i → i < v.size → v.bit i = b → ¬Visible start i →
    ∃ j, start ≤ j ∧ j < i ∧ v.bit j = b ∧ Visible start j

/-- Where the code is right. The three kinds of write want the covered positions to be the right
    ones where the write shows: setting at zeros, clearing at ones, flipping everywhere. -/
def Call.Agrees (v : BitVector) : Call → Prop
  | .setBit index => index.toNat < v.size → index.toNat % 64 < 32 ∧
      ∀ i, v.bit i = false → (OneTouched index.toNat i ↔ i = index.toNat)
  | .clearBit index => index.toNat < v.size → index.toNat % 64 < 32 ∧
      ∀ i, v.bit i = true → (OneTouched index.toNat i ↔ i = index.toNat)
  | .toggleBit index => index.toNat < v.size → index.toNat % 64 < 32 ∧
      ∀ i, OneTouched index.toNat i ↔ i = index.toNat
  | .getBit index => index.toNat < v.size → index.toNat % 64 < 32 ∧
      ((∃ i, OneTouched index.toNat i ∧ v.bit i = true) ↔ v.bit index.toNat = true)
  | .setRegion start len => ∀ i, v.bit i = false →
      (Touched start.toNat len.toNat i ↔ Asked start.toNat len.toNat i)
  | .clearRegion start len => ∀ i, v.bit i = true →
      (Touched start.toNat len.toNat i ↔ Asked start.toNat len.toNat i)
  | .toggleRegion start len => ∀ i,
      Touched start.toNat len.toNat i ↔ Asked start.toNat len.toNat i
  | .findSetBit start => start.toNat < v.size → FindsWell true v start.toNat
  | .findClearBit start => start.toNat < v.size → FindsWell false v start.toNat
  | .foreach _ _ => v.size ≤ 32
  | .length => True

/-- What the caller answers for, when there are `n` bits: sizes up to 2^63, allocations that
    succeed, regions inside the vector, and no search from the size itself, where the find
    functions load a word that need not be there. -/
def Request.InScope (n : Nat) (q : Request) : Prop :=
  q.heap.succeeds = true ∧ match q.call with
  | .setBit index | .clearBit index | .getBit index | .toggleBit index =>
      n ≤ index.toNat → index.toNat ≤ 2 ^ 63
  | .setRegion start len | .clearRegion start len | .toggleRegion start len =>
      start.toNat + len.toNat ≤ n
  | .findSetBit start | .findClearBit start => start.toNat ≠ n
  | .foreach _ _ | .length => True

/-! ## Writes

After a write the array is tidy again exactly if no covered position at or beyond the size was set,
and it holds the bits exactly if the covered positions inside are the right ones, up to those that
the operator leaves as they are. -/

variable {a b : MyBitArray} {v : BitVector} {h : Heap} {index start len : Word}

theorem Represents.bit_eq (hr : Represents a v) {i : Nat} (hi : i < 64 * a.capacity.toNat) :
    a.bit i = v.bit i := by
  rcases Nat.lt_or_ge i v.size with hlt | hge
  · exact hr.bits i hlt
  · rw [hr.clear i (hr.size ▸ hge) hi, BitVector.bit_of_le hge]

theorem Represents.size_le (hr : Represents a v) : v.size ≤ 64 * a.capacity.toNat := by
  have hsize := hr.size
  have hwords := hr.words
  have hfits := hr.fits
  omega

/-- A write lays `f` on the positions `T`; the vector is written at the positions `A`. The array
    still represents the vector exactly if `f` makes no difference between the two. -/
theorem represents_update_iff {f : Bool → Bool → Bool} {T A : Nat → Prop} [DecidablePred T]
    [DecidablePred A] (hr : Represents a v) (hb : b.WordsOk) (hn : b.numOfBits = a.numOfBits)
    (hc : b.capacity = a.capacity) (hbits : ∀ i, b.bit i = f (a.bit i) (decide (T i)))
    (hT : ∀ i, T i → i < 64 * a.capacity.toNat) (hA : ∀ i, A i → i < v.size)
    (hf : ∀ x, f x false = x) :
    Represents b (v.update f A) ↔
      ∀ i, f (v.bit i) (decide (T i)) = f (v.bit i) (decide (A i)) := by
  have hsize := hr.size
  have hcap := hr.size_le
  constructor
  · intro hw i
    rcases Nat.lt_or_ge i v.size with hlt | hge
    · have hbit := hw.bits i hlt
      rwa [hbits i, hr.bits i hlt, BitVector.bit_update hlt] at hbit
    · have hnot : ¬A i := fun hi => Nat.not_lt_of_le hge (hA i hi)
      rw [decide_eq_false hnot, hf]
      by_cases hi : T i
      · have hclear := hw.clear i (by rw [hn, hsize]; exact hge) (by rw [hc]; exact hT i hi)
        rw [hbits i, hr.bit_eq (hT i hi)] at hclear
        rw [hclear, BitVector.bit_of_le hge]
      · rw [decide_eq_false hi, hf]
  · intro hall
    refine ⟨⟨hb, fun i hlo hhi => ?_⟩, by rw [hn, hsize]; rfl, fun i hi => ?_⟩
    · rw [hn, hsize] at hlo
      rw [hc] at hhi
      have hnot : ¬A i := fun hi => Nat.not_lt_of_le hlo (hA i hi)
      rw [hbits i, hr.bit_eq hhi, hall i, decide_eq_false hnot, hf, BitVector.bit_of_le hlo]
    · rw [BitVector.size_update] at hi
      rw [hbits i, hr.bits i hi, hall i, BitVector.bit_update hi]

/-- Setting shows where there is a zero. -/
theorem or_eq_or_iff {x : Bool} {t s : Prop} [Decidable t] [Decidable s] :
    (x || decide t) = (x || decide s) ↔ (x = false → (t ↔ s)) := by
  cases x <;> simp

/-- Clearing shows where there is a one. -/
theorem and_not_eq_iff {x : Bool} {t s : Prop} [Decidable t] [Decidable s] :
    (x && !decide t) = (x && !decide s) ↔ (x = true → (t ↔ s)) := by
  cases x <;> simp

theorem xor_eq_xor_iff {x : Bool} {t s : Prop} [Decidable t] [Decidable s] :
    (xor x (decide t)) = (xor x (decide s)) ↔ (t ↔ s) := by
  cases x <;> simp

/-! ### One bit -/

theorem shlOne_bits {k : Word} (hk : k.toNat < 32) : ∃ m, shlOne k = some m ∧
    ∀ i, i < 64 → m.getLsbD i = decide (i = k.toNat ∨ k.toNat = 31 ∧ 31 ≤ i) := by
  have hlt : k < 32 := hk
  refine ⟨_, if_pos hlt, fun i hi => ?_⟩
  rw [Lib.getLsbD_signExtend_one hk hi]
  split
  · refine decide_eq_decide.mpr ?_
    omega
  · refine decide_eq_decide.mpr ?_
    omega

/-- What a writing single-bit call makes of each position. -/
theorem updateBit_bits {op : Word → Word → Word} {f : Bool → Bool → Bool} (ha : a.WordsOk)
    (hi : index < a.numOfBits) (hlow : index.toNat % 64 < 32)
    (hop : ∀ w m k, k < 64 → (op w m).getLsbD k = f (w.getLsbD k) (m.getLsbD k))
    (hf : ∀ x, f x false = x) :
    ∃ b, bitArrayUpdateBit op shlOne h a index = some b ∧ Framed a b ∧
      ∀ i, b.bit i = f (a.bit i) (decide (OneTouched index.toNat i)) := by
  have hmod : (index % WORD_SIZE).toNat = index.toNat % 64 := by simp
  obtain ⟨m, hm, hbits⟩ := shlOne_bits (k := index % WORD_SIZE) (by rw [hmod]; exact hlow)
  rw [hmod] at hbits
  have hlt := ha.word_lt hi
  have huse := ha.index_lt hi
  refine ⟨_, bitArrayUpdateBit_eq ha hi hm, ⟨rfl, rfl, rfl, List.length_set, fun j hj =>
    List.getElem?_set_ne (by omega)⟩, fun i => ?_⟩
  have hk : i % 64 < 64 := Nat.mod_lt _ (by omega)
  rw [bit_set hlt]
  split
  · rename_i hword
    have hiff : (i % 64 = index.toNat % 64 ∨ index.toNat % 64 = 31 ∧ 31 ≤ i % 64) ↔
        OneTouched index.toNat i := by
      unfold OneTouched
      omega
    rw [hop _ _ _ hk, hbits _ hk, decide_eq_decide.mpr hiff, MyBitArray.bit, hword]
  · rename_i hword
    have hnot : ¬OneTouched index.toNat i := fun hi => hword hi.1
    rw [decide_eq_false hnot, hf]

theorem MyBitArray.WordsOk.framed (ha : a.WordsOk) (hf : Framed a b) : b.WordsOk where
  words := by rw [hf.numOfWords, hf.numOfBits]; exact ha.words
  fits := by rw [hf.numOfWords, hf.capacity]; exact ha.fits
  alloc := by rw [hf.capacity, hf.length]; exact ha.alloc

theorem Represents.grow (hr : Represents a v) (hs : h.succeeds = true)
    (hge : v.size ≤ index.toNat) (hle : index.toNat ≤ 2 ^ 63) :
    ∃ b, bitArrayResize h a index = some (0, b) ∧ Represents b (v.grow index.toNat) := by
  have hsize := hr.size
  have hroom := roundup_words_le hle
  obtain ⟨b, hb, hbits, hg⟩ := bitArrayResize_grown hr.toWordsOk hs (by omega)
    (⟨by omega, fun _ => by omega⟩ : SizesFit a index)
  have hle' : a.numOfBits.toNat ≤ b.numOfBits.toNat := by
    rw [hbits]
    omega
  obtain ⟨hkept, hclear⟩ := hr.toTidy.growth hg
  refine ⟨b, hb, hr.toTidy.grown hg hle', ?_, fun i hi => ?_⟩
  · rw [hbits, BitVector.size_grow, max_eq_right hge]
  · rw [BitVector.size_grow, max_eq_right hge] at hi
    rw [BitVector.bit_grow]
    rcases Nat.lt_or_ge i v.size with hlt | hnew
    · rw [hkept i (by omega), hr.bits i hlt]
    · rw [hclear i (by omega) (by rw [hbits]; exact hi), BitVector.bit_of_le hnew]

/-- The requests on which the two services agree, from related states. -/
abbrev Agree (a : MyBitArray) (v : BitVector) (q : Request) : Prop :=
  Service.Agree Represents reply answer a v q

/-- The three writing calls for one bit. Out of range both services grow. -/
theorem agree_single_iff {op : Word → Word → Word} {f : Bool → Bool → Bool} {q : Request}
    (hr : Represents a v) (hs : q.heap.succeeds = true)
    (hscope : v.size ≤ index.toNat → index.toNat ≤ 2 ^ 63)
    (hreply : reply a q = (bitArrayUpdateBit op shlOne q.heap a index).map fun b => (.done, b))
    (hanswer : answer v q = some (.done, single f v index.toNat))
    (hop : ∀ w m k, k < 64 → (op w m).getLsbD k = f (w.getLsbD k) (m.getLsbD k))
    (hf : ∀ x, f x false = x) :
    Agree a v q ↔ (index.toNat < v.size → index.toNat % 64 < 32 ∧
      ∀ i, f (v.bit i) (decide (OneTouched index.toNat i)) =
        f (v.bit i) (decide (i = index.toNat))) := by
  have hsize := hr.size
  have hcap := hr.size_le
  rcases Nat.lt_or_ge index.toNat v.size with hlt | hge
  · have hin : index < a.numOfBits := by
      show index.toNat < a.numOfBits.toNat
      omega
    rw [single, if_pos hlt] at hanswer
    by_cases hlow : index.toNat % 64 < 32
    · obtain ⟨b, hb, hframe, hbits⟩ := updateBit_bits (h := q.heap) hr.toWordsOk hin hlow hop hf
      rw [hb, Option.map_some] at hreply
      rw [Agree, Service.agree_iff hreply hanswer, and_iff_right rfl, forall_prop_of_true hlt,
        and_iff_right hlow]
      refine represents_update_iff hr (hr.toWordsOk.framed hframe) hframe.numOfBits
        hframe.capacity hbits (fun i hi => ?_) (fun i hi => hi ▸ hlt) hf
      have hword := hi.1
      have hwords := hr.words
      have hfits := hr.fits
      omega
    · -- the shift has no meaning
      have hnone : shlOne (index % WORD_SIZE) = none := shlOne_of_ge (by simpa using hlow)
      have hundef : bitArrayUpdateBit op shlOne q.heap a index = none := by
        rw [bitArrayUpdateBit, if_neg (BitVec.not_le.mpr hin), hnone]
        rfl
      rw [hundef] at hreply
      exact iff_of_false (Service.not_agree hreply) fun hok => hlow (hok hlt).1
  · have hout : index ≥ a.numOfBits := by
      show a.numOfBits.toNat ≤ index.toNat
      omega
    obtain ⟨b, hb, hgrow⟩ := hr.grow hs hge (hscope hge)
    rw [bitArrayUpdateBit, if_pos hout, hb] at hreply
    rw [single, if_neg (Nat.not_lt_of_le hge)] at hanswer
    refine iff_of_true ⟨.done, b, _, hreply, hanswer, hgrow⟩ fun hlt => ?_
    exact absurd hlt (Nat.not_lt_of_le hge)

/-- The three region calls. -/
theorem agree_region_iff {op first : Word → Word → Word} {between : Word → Word}
    {f : Bool → Bool → Bool} {q : Request} (hr : Represents a v)
    (hle : start.toNat + len.toNat ≤ v.size) (hl : LaysOn op first between f)
    (hreply : reply a q = (bitArrayRegion op first between op a start len).map fun b => (.done, b))
    (hanswer : answer v q = some (.done, v.update f (Asked start.toNat len.toNat))) :
    Agree a v q ↔ ∀ i, f (v.bit i) (decide (Touched start.toNat len.toNat i)) =
      f (v.bit i) (decide (Asked start.toNat len.toNat i)) := by
  have hsize := hr.size
  have hle' : start.toNat + len.toNat ≤ a.numOfBits.toNat := by omega
  obtain ⟨b, hb, hframe⟩ := bitArrayRegion_framed op first between op hr.toWordsOk hle'
  obtain ⟨b', hb', hbits⟩ := hl.region_bits hr.toWordsOk hle'
  obtain rfl : b = b' := Option.some.inj (hb.symm.trans hb')
  rw [hb, Option.map_some] at hreply
  rw [Agree, Service.agree_iff hreply hanswer, and_iff_right rfl]
  refine represents_update_iff hr (hr.toWordsOk.framed hframe) hframe.numOfBits hframe.capacity
    hbits (fun i hi => ?_) (fun i hi => hi.2.trans_le hle) hl.keep
  have hword := hi.lt
  have hpos := hi.1
  have hwords := hr.words
  have hfits := hr.fits
  omega

/-! ## Reads -/

/-- `bit_array_get_bit` answers whether one of the positions its mask covers is set. -/
theorem getBit_covered (hr : Represents a v) (hi : index.toNat < v.size)
    (hlow : index.toNat % 64 < 32) :
    ∃ c : Bool, bitArrayGetBit shlOne h a index = some (c.toNat, a) ∧
      (c = true ↔ ∃ i, OneTouched index.toNat i ∧ v.bit i = true) := by
  have hsize := hr.size
  have hin : index < a.numOfBits := by
    show index.toNat < a.numOfBits.toNat
    omega
  have hmod : (index % WORD_SIZE).toNat = index.toNat % 64 := by simp
  obtain ⟨m, hm, hbits⟩ := shlOne_bits (k := index % WORD_SIZE) (by rw [hmod]; exact hlow)
  rw [hmod] at hbits
  have huse := hr.index_lt hin
  have hfits := hr.fits
  refine ⟨decide (a.buffBits.getD (index.toNat / 64) 0 &&& m ≠ 0#64), ?_, ?_⟩
  · rw [bitArrayGetBit_eq hr.toWordsOk hin hm]
    split
    · rename_i hne
      rw [decide_eq_true hne]
      rfl
    · rename_i heq
      rw [decide_eq_false heq]
      rfl
  · rw [decide_eq_true_iff]
    constructor
    · intro hne
      obtain ⟨k, hk, hbit⟩ : ∃ k, k < 64 ∧
          (a.buffBits.getD (index.toNat / 64) 0 &&& m).getLsbD k = true := by
        by_contra hnone
        refine hne (BitVec.eq_of_getLsbD_eq fun k hk => ?_)
        rw [BitVec.getLsbD_zero]
        exact Bool.eq_false_of_not_eq_true fun hbit => hnone ⟨k, hk, hbit⟩
      rw [BitVec.getLsbD_and, Bool.and_eq_true, hbits k hk, decide_eq_true_iff] at hbit
      have hdiv : (64 * (index.toNat / 64) + k) / 64 = index.toNat / 64 := by omega
      have hplace : (64 * (index.toNat / 64) + k) % 64 = k := by omega
      refine ⟨64 * (index.toNat / 64) + k, ⟨hdiv, by omega⟩, ?_⟩
      rw [← hr.bit_eq (by omega), MyBitArray.bit, hdiv, hplace]
      exact hbit.1
    · rintro ⟨i, ⟨hword, hplace⟩, hbit⟩ hzero
      have hk : i % 64 < 64 := Nat.mod_lt _ (by omega)
      have hand : (a.buffBits.getD (index.toNat / 64) 0 &&& m).getLsbD (i % 64) = false := by
        rw [hzero, BitVec.getLsbD_zero]
      rw [← hr.bit_eq (by omega), MyBitArray.bit, hword] at hbit
      rw [BitVec.getLsbD_and, hbit, hbits _ hk, Bool.true_and, decide_eq_false_iff_not] at hand
      omega

theorem agree_getBit_iff {q : Request} (hr : Represents a v) (hs : q.heap.succeeds = true)
    (hscope : v.size ≤ index.toNat → index.toNat ≤ 2 ^ 63) (hq : q.call = .getBit index) :
    Agree a v q ↔ (Call.getBit index).Agrees v := by
  have hsize := hr.size
  have hreply : reply a q =
      (bitArrayGetBit shlOne q.heap a index).map fun r => (.bit r.1, r.2) := by rw [reply, hq]
  have hanswer : answer v q = some (.bit (v.bit index.toNat).toNat,
      if index.toNat < v.size then v else v.grow index.toNat) := by rw [answer, hq]
  rcases Nat.lt_or_ge index.toNat v.size with hlt | hge
  · rw [if_pos hlt] at hanswer
    by_cases hlow : index.toNat % 64 < 32
    · obtain ⟨c, hc, hcov⟩ := getBit_covered (h := q.heap) hr hlt hlow
      rw [hc, Option.map_some] at hreply
      have hint : c.toNat = (v.bit index.toNat).toNat ↔ c = v.bit index.toNat := by
        cases c <;> cases v.bit index.toNat <;> simp
      rw [Agree, Service.agree_iff hreply hanswer, and_iff_left hr, Reply.bit.injEq, hint,
        Bool.eq_iff_iff, hcov]
      exact ⟨fun hiff _ => ⟨hlow, hiff⟩, fun hok => (hok hlt).2⟩
    · have hin : index < a.numOfBits := by
        show index.toNat < a.numOfBits.toNat
        omega
      have hnone : shlOne (index % WORD_SIZE) = none := shlOne_of_ge (by simpa using hlow)
      have hundef : bitArrayGetBit shlOne q.heap a index = none := by
        rw [bitArrayGetBit, if_neg (BitVec.not_le.mpr hin), hnone]
        rfl
      rw [hundef] at hreply
      exact iff_of_false (Service.not_agree hreply) fun hok => hlow (hok hlt).1
  · have hout : index ≥ a.numOfBits := by
      show a.numOfBits.toNat ≤ index.toNat
      omega
    obtain ⟨b, hb, hgrow⟩ := hr.grow hs hge (hscope hge)
    rw [bitArrayGetBit, if_pos hout, hb] at hreply
    rw [if_neg (Nat.not_lt_of_le hge), BitVector.bit_of_le hge] at hanswer
    exact iff_of_true ⟨_, b, _, hreply, hanswer, hgrow⟩
      fun hlt => absurd hlt (Nat.not_lt_of_le hge)

/-! ### Searches

`Find` has the law for an array; here it is carried over to the vector, whose bits are those of the
array below the size. -/

theorem Represents.findsWell_iff (hr : Represents a v) {b : Bool} {start : Nat}
    (hs : start < v.size) : Unharmed b a start ↔ FindsWell b v start := by
  have hsize := hr.size
  constructor
  · rintro ⟨hfront, hhidden⟩
    refine ⟨fun i hlo hlt hb => ?_, fun i hlo hhi hb hv => ?_⟩
    · exact hfront i hlo hlt (by rw [hr.bits i (hlt.trans hs)]; exact hb)
    · obtain ⟨j, hj, hlt, hbit, hvis⟩ := hhidden i hlo (by omega)
        (by rw [hr.bits i hhi]; exact hb) hv
      exact ⟨j, hj, hlt, by rw [← hr.bits j (hlt.trans hhi)]; exact hbit, hvis⟩
  · rintro ⟨hfront, hhidden⟩
    refine ⟨fun i hlo hlt hb => ?_, fun i hlo hhi hb hv => ?_⟩
    · exact hfront i hlo hlt (by rw [← hr.bits i (hlt.trans hs)]; exact hb)
    · rw [hsize] at hhi
      obtain ⟨j, hj, hlt, hbit, hvis⟩ := hhidden i hlo hhi
        (by rw [← hr.bits i hhi]; exact hb) hv
      exact ⟨j, hj, hlt, by rw [hr.bits j (hlt.trans hhi)]; exact hbit, hvis⟩

/-- Answering the first match is answering what the vector does. -/
theorem Represents.findsFirst_iff (hr : Represents a v) {b : Bool}
    {found : Option (Option Word)} :
    FindsFirst b a start found ↔ ∃ r, found = some r ∧
      r.map BitVec.toNat = v.next b start.toNat := by
  have hnext : Lib.IsFirst (fun i => a.bit i = b) start.toNat a.numOfBits.toNat
      (v.next b start.toNat) := by
    rw [hr.size]
    exact (BitVector.isFirst_next b start.toNat).congr fun i _ hi => by rw [hr.bits i hi]
  refine exists_congr fun r => and_congr_right fun _ => ⟨fun hfirst => ?_, fun heq => ?_⟩
  · exact hfirst.unique hnext
  · rw [heq]
    exact hnext

theorem agree_find_iff {b : Bool} {q : Request} {found : Option (Option Word)}
    (hr : Represents a v) (hne : start.toNat ≠ v.size)
    (hreply : reply a q = found.map fun r => (.found (r.map BitVec.toNat), a))
    (hanswer : answer v q = some (.found (v.next b start.toNat), v))
    (hin : start < a.numOfBits → (FindsFirst b a start found ↔ Unharmed b a start.toNat))
    (hout : start > a.numOfBits → found = some none) :
    Agree a v q ↔ (start.toNat < v.size → FindsWell b v start.toNat) := by
  have hsize := hr.size
  have hagree : Agree a v q ↔ FindsFirst b a start found := by
    rw [hr.findsFirst_iff]
    cases found with
    | none => exact iff_of_false (Service.not_agree hreply) fun ⟨r, hr', _⟩ => nomatch hr'
    | some r =>
      rw [Agree, Service.agree_iff hreply hanswer, and_iff_left hr, Reply.found.injEq]
      exact ⟨fun heq => ⟨r, rfl, heq⟩, fun ⟨r', hr', heq⟩ => Option.some.inj hr' ▸ heq⟩
  rw [hagree]
  rcases Nat.lt_or_gt_of_ne hne with hlt | hgt
  · have hlt' : start < a.numOfBits := by
      show start.toNat < a.numOfBits.toNat
      omega
    rw [hin hlt', hr.findsWell_iff hlt, forall_prop_of_true hlt]
  · have hgt' : start > a.numOfBits := by
      show a.numOfBits.toNat < start.toNat
      omega
    refine iff_of_true ⟨none, hout hgt', fun i hlo hhi => ?_⟩ fun hlt => ?_
    · omega
    · omega

/-! ### The walk

`foreach` reads every position with `bit_array_get_bit`. The first 32 shifts have a meaning; index
31 is read together with the rest of its word, which does no harm when it is the last position. -/

section Walk

variable {δ : Type} (func : Nat → δ → Int × δ)

theorem toNat_index (hr : Represents a v) {i : Nat} (hi : i < v.size) :
    (BitVec.ofNat 64 i).toNat = i := by
  have hsize := hr.size
  have hbits := a.numOfBits.isLt
  rw [BitVec.toNat_ofNat]
  omega

/-- A round in range whose shift has a meaning does not change the array. -/
theorem foreachRound_low (hr : Represents a v) (x : Int × δ) {i : Nat} (hi : i < v.size)
    (hlow : i % 64 < 32) : ∃ c : Bool, (c = true ↔ ∃ j, OneTouched i j ∧ v.bit j = true) ∧
      foreachRound shlOne h func (x.1, x.2, a) i =
        some ((visit func x c).1, (visit func x c).2, a) := by
  have hnat := toNat_index hr hi
  obtain ⟨c, hc, hcov⟩ := @getBit_covered a v h (BitVec.ofNat 64 i) hr
    (by rw [hnat]; exact hi) (by rw [hnat]; exact hlow)
  rw [hnat] at hcov
  refine ⟨c, hcov, ?_⟩
  rw [foreachRound, hc]
  rfl

theorem foreachRound_high (hr : Represents a v) (x : Int × δ) {i : Nat} (hi : i < v.size)
    (hhigh : 32 ≤ i % 64) : foreachRound shlOne h func (x.1, x.2, a) i = none := by
  have hsize := hr.size
  have hnat := toNat_index hr hi
  have hin : BitVec.ofNat 64 i < a.numOfBits := by
    show (BitVec.ofNat 64 i).toNat < a.numOfBits.toNat
    omega
  have hnone : shlOne (BitVec.ofNat 64 i % WORD_SIZE) = none :=
    shlOne_of_ge (by rw [BitVec.toNat_umod, hnat]; exact hhigh)
  rw [foreachRound, bitArrayGetBit, if_neg (BitVec.not_le.mpr hin), hnone]
  rfl

/-- Up to 32 bits the walk visits the bits of the vector: index 31 is read with the rest of its
    word, where nothing is set. Its sum is one of at most 32 values of type `int`. Induction on
    the positions still to visit. -/
theorem foreach_low (hr : Represents a v) (hsmall : v.size ≤ 32) :
    ∀ (l : List Nat), (∀ i ∈ l, i < v.size) → ∀ x : Int × δ,
      l.foldlM (foreachRound shlOne h func) (x.1, x.2, a) =
        some ((l.foldl (fun x i => visit func x (v.bit i)) x).1,
          (l.foldl (fun x i => visit func x (v.bit i)) x).2, a) := by
  intro l
  induction l with
  | nil => intro _ x; rfl
  | cons i l ih =>
    intro hl x
    have hi := hl i List.mem_cons_self
    obtain ⟨c, hcov, hround⟩ := foreachRound_low (h := h) func hr x hi (by omega)
    have hbit : c = v.bit i := by
      rw [Bool.eq_iff_iff, hcov]
      constructor
      · rintro ⟨j, ⟨hword, hplace⟩, hj⟩
        have hlt := BitVector.lt_of_bit hj
        obtain rfl : j = i := by omega
        exact hj
      · exact fun hj => ⟨i, ⟨rfl, .inl rfl⟩, hj⟩
    rw [List.foldlM_cons, hround, hbit]
    exact ih (fun j hj => hl j (List.mem_cons_of_mem _ hj)) _

/-- Past that the walk comes to a shift without a meaning. Induction on the positions still to
    visit: up to such a one every round leaves the array as it is. -/
theorem foreach_high (hr : Represents a v) : ∀ (l : List Nat), (∀ i ∈ l, i < v.size) →
    (∃ i ∈ l, 32 ≤ i % 64) → ∀ x : Int × δ,
      l.foldlM (foreachRound shlOne h func) (x.1, x.2, a) = none := by
  intro l
  induction l with
  | nil => rintro - ⟨i, hi, -⟩; cases hi
  | cons i l ih =>
    rintro hl ⟨j, hj, hhigh⟩ x
    have hi := hl i List.mem_cons_self
    rw [List.foldlM_cons]
    rcases Nat.lt_or_ge (i % 64) 32 with hlow | hge
    · obtain ⟨c, -, hround⟩ := foreachRound_low (h := h) func hr x hi hlow
      have htail : j ∈ l := by
        rcases List.mem_cons.mp hj with rfl | hmem
        · omega
        · exact hmem
      rw [hround]
      exact ih (fun k hk => hl k (List.mem_cons_of_mem _ hk)) ⟨j, htail, hhigh⟩ _
    · rw [foreachRound_high func hr x hi hge]
      rfl

end Walk

theorem agree_foreach_iff {δ : Type} {func : Nat → δ → Int × δ} {data : δ} {q : Request}
    (hr : Represents a v) (hq : q.call = .foreach func data) :
    Agree a v q ↔ v.size ≤ 32 := by
  have hsize := hr.size
  have hrange : ∀ i ∈ List.range v.size, i < v.size := fun i hi => List.mem_range.mp hi
  have hreply : reply a q = (bitArrayForeach shlOne q.heap func a data).map
      fun r => (.folded r.1 r.2.1, r.2.2) := by rw [reply, hq]
  rw [bitArrayForeach, hsize] at hreply
  rcases Nat.lt_or_ge 32 v.size with hlarge | hsmall
  · rw [foreach_high func hr _ hrange ⟨32, List.mem_range.mpr hlarge, by omega⟩ (0, data)]
      at hreply
    exact iff_of_false (Service.not_agree hreply) (Nat.not_le_of_lt hlarge)
  · rw [foreach_low func hr hsmall _ hrange (0, data)] at hreply
    have hanswer : answer v q = some (.folded (v.fold (visit func) (0, data)).1
        (v.fold (visit func) (0, data)).2, v) := by rw [answer, hq]
    exact iff_of_true ⟨_, a, v, hreply, hanswer, hr⟩ hsmall

/-! ## All requests

A list of requests is a run of `Lib.Service`, and the agreement of one request gives that of a list
by its general rule. -/

/-- **One request.** In scope the code and the vector agree on it exactly if the call is one of
    those the masks do not spoil. -/
theorem agree_iff {q : Request} (hr : Represents a v) (hq : q.InScope v.size) :
    Agree a v q ↔ q.call.Agrees v := by
  obtain ⟨call, heap⟩ := q
  obtain ⟨hs, hscope⟩ := hq
  have hsize := hr.size
  cases call with
  | setBit index =>
    rw [agree_single_iff (f := or) hr hs hscope rfl rfl
      (fun w m k _ => BitVec.getLsbD_or) Bool.or_false]
    simp only [or_eq_or_iff, Call.Agrees]
  | clearBit index =>
    rw [agree_single_iff (f := fun x y => x && !y) hr hs hscope rfl rfl
      (fun w m k hk => by simp [hk]) Bool.and_true]
    simp only [and_not_eq_iff, Call.Agrees]
  | toggleBit index =>
    rw [agree_single_iff (f := xor) hr hs hscope rfl rfl
      (fun w m k _ => BitVec.getLsbD_xor) Bool.xor_false]
    simp only [xor_eq_xor_iff, Call.Agrees]
  | getBit index => exact agree_getBit_iff hr hs hscope rfl
  | setRegion start len =>
    rw [agree_region_iff hr hscope setRegion_laysOn rfl rfl]
    simp only [or_eq_or_iff, Call.Agrees]
  | clearRegion start len =>
    rw [agree_region_iff hr hscope clearRegion_laysOn rfl rfl]
    simp only [and_not_eq_iff, Call.Agrees]
  | toggleRegion start len =>
    rw [agree_region_iff hr hscope toggleRegion_laysOn rfl rfl]
    simp only [xor_eq_xor_iff, Call.Agrees]
  | findSetBit start =>
    exact agree_find_iff hr hscope rfl rfl
      (fun hlt => findSet_looksFor.findsFirst_iff hr.toWordsOk hlt (by omega)) fun hgt => if_pos hgt
  | findClearBit start =>
    exact agree_find_iff hr hscope rfl rfl
      (fun hlt => findClear_looksFor.findsFirst_iff hr.toWordsOk hlt (by omega))
      fun hgt => if_pos hgt
  | foreach func data => exact agree_foreach_iff hr rfl
  | length =>
    have hlength : reply a ⟨.length, heap⟩ = some (.length v.size, a) := by
      rw [← hsize]
      rfl
    exact iff_of_true ⟨_, a, v, hlength, rfl, hr⟩ trivial

theorem Represents.init {n : Word} (hn : n.toNat + 63 < 2 ^ 64)
    (ha : bitArrayInit h n = some a) : Represents a (BitVector.zeros n.toNat) := by
  obtain ⟨hbits, -, -, hbuf⟩ := bitArrayInit_fields ha
  refine ⟨Tidy.init hn ha, congrArg BitVec.toNat hbits, fun i _ => ?_⟩
  rw [BitVector.bit_zeros, MyBitArray.bit, hbuf]
  exact getLsbD_replicate_zero _ _ _

/-- **The bit array as a service.** From a constructed array the code answers a list of requests in
    scope like the vector of bits, staying a representation of it, exactly if the masks spoil none
    of them.

    `Service.InStep` asks for equal replies and for a representation after every single request. Two
    requests that spoil the same bits may leave the array right behind the second of them, and that
    is not enough: the array is no representation in between. -/
theorem replies_iff {n : Word} (hn : n.toNat + 63 < 2 ^ 64) {a₀ : MyBitArray}
    (h₀ : bitArrayConstruct true h n = some a₀) {qs : List Request}
    (hscope : Service.All answer (fun v q => q.InScope v.size) (BitVector.zeros n.toNat) qs) :
    (Service.InStep Represents reply answer a₀ (BitVector.zeros n.toNat) qs ↔
      Service.All answer (fun v q => q.call.Agrees v) (BitVector.zeros n.toNat) qs) ∧
    (Service.All answer (fun v q => q.call.Agrees v) (BitVector.zeros n.toNat) qs →
      ∃ rs a v, Service.serve reply a₀ qs = some (rs, a) ∧
        Service.serve answer (BitVector.zeros n.toNat) qs = some (rs, v) ∧ Represents a v) := by
  have hr : Represents a₀ (BitVector.zeros n.toNat) := Represents.init hn h₀
  have hiff : Service.InStep Represents reply answer a₀ (BitVector.zeros n.toNat) qs ↔ _ :=
    Service.inStep_iff (fun _ _ _ => agree_iff) hr hscope
  exact ⟨hiff, fun hall => (hiff.mpr hall).serve hr⟩

/-- Position 30 is set, the first word flipped, the array grown, and the first one looked for. -/
def hundredRequests : List Request :=
  [⟨.setBit 30, quietHeap⟩, ⟨.toggleRegion 0 64, quietHeap⟩, ⟨.setBit 200, quietHeap⟩,
    ⟨.findSetBit 64, quietHeap⟩]

theorem replies_hundred : ∃ rs a v,
    Service.serve reply ⟨100, 2, 2, [0, 0]⟩ hundredRequests = some (rs, a) ∧
      Service.serve answer (BitVector.zeros 100) hundredRequests = some (rs, v) ∧
      Represents a v := by
  have hset : Call.Agrees (BitVector.zeros 100) (.setBit 30) := fun _ => by
    refine ⟨by decide, fun i _ => ?_⟩
    show OneTouched 30 i ↔ i = 30
    unfold OneTouched
    omega
  have htoggle : ∀ v, Call.Agrees v (.toggleRegion 0 64) :=
    fun v => touched_iff_asked.mpr (.inr ⟨by decide, by decide⟩)
  have hgrow : ∀ v : BitVector, v.size = 100 → Call.Agrees v (.setBit 200) := fun v hv hlt => by
    rw [hv] at hlt
    exact absurd hlt (by decide)
  have hfind : ∀ v, Call.Agrees v (.findSetBit 64) := fun v _ => by
    show FindsWell true v 64
    exact ⟨fun i hlo hlt _ => by omega, fun i _ _ _ hhidden => absurd (fun _ => by omega) hhidden⟩
  refine (replies_iff (n := 100) (h := quietHeap) (by decide)
    (show bitArrayConstruct true quietHeap 100 = some ⟨100, 2, 2, [0, 0]⟩ by decide) ?_).2 ?_
  · refine (Service.all_cons rfl).mpr ⟨⟨rfl, fun _ => by decide⟩, (Service.all_cons rfl).mpr
      ⟨⟨rfl, ?_⟩, (Service.all_cons rfl).mpr ⟨⟨rfl, fun _ => by decide⟩,
        (Service.all_cons rfl).mpr ⟨⟨rfl, ?_⟩, trivial⟩⟩⟩⟩
    · show (0#64).toNat + (64#64).toNat ≤ 100
      decide
    · show (64#64).toNat ≠ max 100 200
      decide
  · exact (Service.all_cons rfl).mpr ⟨hset, (Service.all_cons rfl).mpr ⟨htoggle _,
      (Service.all_cons rfl).mpr ⟨hgrow _ rfl, (Service.all_cons rfl).mpr ⟨hfind _, trivial⟩⟩⟩⟩

end CompTech.BitArray
