import CompTech.BitArray.Model

/-!
# The single-bit operations as a map from positions to bits

`MyBitArray.bit j` is the bit a reader of the interface expects at position `j`: bit `j % 64`,
least significant first, of word `j / 64`. `SingleBitSpec` says the four operations are the
operations of that map, and `singleBitSpec_iff` says exactly where they are.

The mask decides. For `index % 64 < 31` the shifted literal is the one bit asked for. At 31 it
is the sign bit of the 32-bit literal, and the sign extension fills the upper half of the
word: `bit_array_toggle_bit` then flips 33 positions. From 32 on the shift has no meaning.
-/

namespace CompTech.BitArray

namespace MyBitArray

/-- The bit at position `j`; positions past the buffer read as clear. -/
def bit (a : MyBitArray) (j : Nat) : Bool := (a.buffBits.getD (j / 64) 0).getLsbD (j % 64)

/-- What every call leaves of the array it finds: the counts fit the buffer. -/
structure WordsOk (a : MyBitArray) : Prop where
  words : a.numOfWords.toNat = (a.numOfBits.toNat + 63) / 64
  fits : a.numOfWords.toNat ≤ a.capacity.toNat
  alloc : a.capacity.toNat ≤ a.buffBits.length

theorem WordsOk.index_lt {a : MyBitArray} (h : a.WordsOk) {i : Word} (hi : i < a.numOfBits) :
    i.toNat / 64 < a.numOfWords.toNat := by
  have hlt : i.toNat < a.numOfBits.toNat := hi
  have hw := h.words
  omega

end MyBitArray

open MyBitArray

/-! ## Words and positions -/

@[simp] theorem toNat_WORD_SIZE : WORD_SIZE.toNat = 64 := rfl

theorem readWord_of_lt {buf : List Word} {i : Word} (hi : i.toNat < buf.length) :
    readWord buf i = some (buf.getD i.toNat 0) := by
  simp [readWord, List.getD_eq_getElem?_getD, List.getElem?_eq_getElem hi]

/-- Storing one word changes the bits of that word only. -/
theorem bit_set {a : MyBitArray} {k : Nat} (hk : k < a.buffBits.length) (w : Word) (j : Nat) :
    ({ a with buffBits := a.buffBits.set k w } : MyBitArray).bit j =
      if j / 64 = k then w.getLsbD (j % 64) else a.bit j := by
  by_cases hj : j / 64 = k
  · subst hj
    simp [bit, List.getD_eq_getElem?_getD, List.getElem?_set_self hk]
  · simp [bit, List.getD_eq_getElem?_getD, List.getElem?_set_ne (Ne.symm hj), hj]

/-! ## The mask -/

/-- `m` is the mask of place `k`. -/
def IsBit (m : Word) (k : Nat) : Prop := ∀ i, i < 64 → m.getLsbD i = decide (i = k)

/-- Below 31 the literal is the bit. -/
theorem shlOne_of_lt {k : Word} (hk : k.toNat < 31) : ∃ m, shlOne k = some m ∧ IsBit m k.toNat := by
  have hlt : k < 32 := by show k.toNat < 32; omega
  refine ⟨_, if_pos hlt, fun i hi => ?_⟩
  rw [Lib.getLsbD_signExtend_one (by omega) hi]
  by_cases h : i < 32
  · rw [if_pos h]
  · rw [if_neg h, Bool.eq_iff_iff, decide_eq_true_iff, decide_eq_true_iff]
    omega

/-- At 31 the literal is negative: every place from 31 up is set. -/
theorem shlOne_sign {k : Word} (hk : k.toNat = 31) :
    ∃ m, shlOne k = some m ∧ ∀ i, i < 64 → 31 < i → m.getLsbD i = true := by
  have hlt : k < 32 := by show k.toNat < 32; omega
  refine ⟨_, if_pos hlt, fun i hi h => ?_⟩
  rw [Lib.getLsbD_signExtend_one (by omega) hi, if_neg (by omega), hk]
  rfl

/-- From 32 on it is undefined. -/
theorem shlOne_of_ge {k : Word} (hk : 32 ≤ k.toNat) : shlOne k = none :=
  if_neg (fun h => absurd (show k.toNat < 32 from h) (by omega))

/-! ## What one call does to the map -/

/-- `b` is `a` with the bit at `i` set to `v`; no other bit, and no count, moves. -/
structure BitSet (a : MyBitArray) (i : Nat) (v : Bool) (b : MyBitArray) : Prop where
  here : b.bit i = v
  away : ∀ j, j ≠ i → b.bit j = a.bit j
  numOfBits : b.numOfBits = a.numOfBits
  numOfWords : b.numOfWords = a.numOfWords
  capacity : b.capacity = a.capacity

/-- The four operations, at one array and one index, are those of the map. -/
structure SingleBitSpec (h : Heap) (a : MyBitArray) (i : Word) : Prop where
  set : ∃ b, bitArraySetBit shlOne h a i = some b ∧ BitSet a i.toNat true b
  clear : ∃ b, bitArrayClearBit shlOne h a i = some b ∧ BitSet a i.toNat false b
  toggle : ∃ b, bitArrayToggleBit shlOne h a i = some b ∧ BitSet a i.toNat (!a.bit i.toNat) b
  get : bitArrayGetBit shlOne h a i = some ((a.bit i.toNat).toNat, a)

section InRange

variable {h : Heap} {a : MyBitArray} {i : Word} {shl : Word → Option Word} {m : Word}

theorem MyBitArray.WordsOk.word_lt (ha : a.WordsOk) (hi : i < a.numOfBits) :
    i.toNat / 64 < a.buffBits.length := by
  have hlt := ha.index_lt hi
  have hfits := ha.fits
  have halloc := ha.alloc
  omega

/-- In range, and where the mask is defined, one word is changed. -/
theorem bitArrayUpdateBit_eq {op : Word → Word → Word} (ha : a.WordsOk) (hi : i < a.numOfBits)
    (hm : shl (i % WORD_SIZE) = some m) :
    bitArrayUpdateBit op shl h a i = some { a with
      buffBits := a.buffBits.set (i.toNat / 64) (op (a.buffBits.getD (i.toNat / 64) 0) m) } := by
  have hlt := ha.word_lt hi
  simp [bitArrayUpdateBit, BitVec.not_le.mpr hi, hm, Lib.storeAt_eq_set _ 0#64 hlt]

/-- And `bit_array_get_bit` reads it. -/
theorem bitArrayGetBit_eq (ha : a.WordsOk) (hi : i < a.numOfBits)
    (hm : shl (i % WORD_SIZE) = some m) :
    bitArrayGetBit shl h a i =
      some (if a.buffBits.getD (i.toNat / 64) 0 &&& m ≠ 0#64 then 1 else 0, a) := by
  have hlt : (i / WORD_SIZE).toNat < a.buffBits.length := by simpa using ha.word_lt hi
  simp [bitArrayGetBit, BitVec.not_le.mpr hi, hm, readWord_of_lt hlt]

/-- Combining the word with the mask of the index, when `op` acts bit by bit and leaves a bit
    alone where the mask is clear, changes the one bit. -/
theorem BitSet.of_update (op : Word → Word → Word) (f : Bool → Bool → Bool) (ha : a.WordsOk)
    (hi : i < a.numOfBits) (hm : shl (i % WORD_SIZE) = some m) (hbit : IsBit m (i.toNat % 64))
    (hop : ∀ w m k, k < 64 → (op w m).getLsbD k = f (w.getLsbD k) (m.getLsbD k))
    (hf : ∀ x, f x false = x) :
    ∃ b, bitArrayUpdateBit op shl h a i = some b ∧
      BitSet a i.toNat (f (a.bit i.toNat) true) b := by
  have hlt := ha.word_lt hi
  have hk : i.toNat % 64 < 64 := Nat.mod_lt _ (by omega)
  refine ⟨_, bitArrayUpdateBit_eq ha hi hm, ?_, fun j hj => ?_, rfl, rfl, rfl⟩
  · rw [bit_set hlt, if_pos rfl, hop _ _ _ hk, hbit _ hk, decide_eq_true rfl]
    rfl
  · rw [bit_set hlt]
    by_cases hw : j / 64 = i.toNat / 64
    · have hne : j % 64 ≠ i.toNat % 64 := by omega
      have hj64 : j % 64 < 64 := Nat.mod_lt _ (by omega)
      rw [if_pos hw, hop _ _ _ hj64, hbit _ hj64, decide_eq_false hne, hf, bit, hw]
    · rw [if_neg hw]

/-- Reading under the mask of the index reads the bit. -/
theorem and_mask_ne_zero (hbit : IsBit m (i.toNat % 64)) :
    (a.buffBits.getD (i.toNat / 64) 0 &&& m ≠ 0#64) ↔ a.bit i.toNat = true := by
  have hk : i.toNat % 64 < 64 := Nat.mod_lt _ (by omega)
  constructor
  · intro hne
    by_contra hb
    refine hne (BitVec.eq_of_getLsbD_eq fun j hj => ?_)
    rw [BitVec.getLsbD_and, hbit j hj, BitVec.getLsbD_zero]
    by_cases hjk : j = i.toNat % 64
    · rw [hjk]
      simpa [bit] using hb
    · simp [hjk]
  · intro hb h0
    have hz : (a.buffBits.getD (i.toNat / 64) 0 &&& m).getLsbD (i.toNat % 64) = false := by
      rw [h0, BitVec.getLsbD_zero]
    rw [BitVec.getLsbD_and, hbit _ hk, decide_eq_true rfl, Bool.and_true] at hz
    exact Bool.noConfusion (hb.symm.trans hz)

/-- Below the sign bit of the literal the four operations are those of the map. -/
theorem SingleBitSpec.of_lt (ha : a.WordsOk) (hi : i < a.numOfBits)
    (hlow : i.toNat % 64 < 31) : SingleBitSpec h a i := by
  obtain ⟨m, hm, hbit⟩ := shlOne_of_lt (k := i % WORD_SIZE) (by simpa using hlow)
  replace hbit : IsBit m (i.toNat % 64) := by simpa using hbit
  constructor
  -- each writing call is `of_update` with the operation on one bit that its operator is
  · have hset := BitSet.of_update (h := h) (fun w m => w ||| m) or ha hi hm hbit
      (fun w m k _ => BitVec.getLsbD_or) (by simp)
    simpa [bitArraySetBit] using hset
  · have hclear := BitSet.of_update (h := h) (fun w m => w &&& ~~~m) (fun x y => x && !y)
      ha hi hm hbit (fun w m k hk => by simp [hk]) (by simp)
    simpa [bitArrayClearBit] using hclear
  · have htoggle := BitSet.of_update (h := h) (fun w m => w ^^^ m) xor ha hi hm hbit
      (fun w m k _ => BitVec.getLsbD_xor) (by simp)
    simpa [bitArrayToggleBit] using htoggle
  · rw [bitArrayGetBit_eq ha hi hm]
    simp only [and_mask_ne_zero hbit]
    cases a.bit i.toNat <;> rfl

/-- From 32 on the call is undefined: the spec of `bit_array_set_bit` already fails. -/
theorem not_singleBitSpec_of_ge (hi : i < a.numOfBits) (hhigh : 32 ≤ i.toNat % 64) :
    ¬ SingleBitSpec h a i := by
  intro hs
  obtain ⟨b, hb, _⟩ := hs.set
  have hnone : shlOne (i % WORD_SIZE) = none := shlOne_of_ge (by simpa using hhigh)
  simp [bitArraySetBit, bitArrayUpdateBit, BitVec.not_le.mpr hi, hnone] at hb

/-- At 31 `bit_array_toggle_bit` also flips the next position. -/
theorem not_singleBitSpec_of_sign (ha : a.WordsOk) (hi : i < a.numOfBits)
    (hsign : i.toNat % 64 = 31) : ¬ SingleBitSpec h a i := by
  intro hs
  obtain ⟨b, hb, hset⟩ := hs.toggle
  obtain ⟨m, hm, hbits⟩ := shlOne_sign (k := i % WORD_SIZE) (by simpa using hsign)
  rw [bitArrayToggleBit, bitArrayUpdateBit_eq ha hi hm, Option.some.injEq] at hb
  have hdiv : (i.toNat + 1) / 64 = i.toNat / 64 := by omega
  have hmod : (i.toNat + 1) % 64 = 32 := by omega
  have hfixed := hset.away (i.toNat + 1) (by omega)
  rw [← hb, bit_set (ha.word_lt hi), if_pos hdiv, hmod, BitVec.getLsbD_xor,
    hbits 32 (by omega) (by omega), bit, hdiv, hmod] at hfixed
  revert hfixed
  cases (a.buffBits.getD (i.toNat / 64) 0).getLsbD 32 <;> simp

end InRange

/-- **Where the single-bit operations are those of a map**: at every valid array and index in range,
    exactly when the bit's place in its word is below the sign bit of the shifted `int` literal. The
    index only has to be in range, and the array to have its words. Below 31 the three masks are
    single bits; at 31 and from 32 on there is one operation each that fails, for every array. -/
theorem singleBitSpec_iff (h : Heap) (a : MyBitArray) (i : Word) (ha : a.WordsOk)
    (hi : i < a.numOfBits) : SingleBitSpec h a i ↔ i.toNat % 64 < 31 := by
  refine ⟨fun hs => ?_, SingleBitSpec.of_lt ha hi⟩
  by_contra hge
  rcases Nat.lt_or_ge (i.toNat % 64) 32 with hlt | hge32
  · exact not_singleBitSpec_of_sign ha hi (by omega) hs
  · exact not_singleBitSpec_of_ge hi hge32 hs

/-! A fresh array of 64 bits, at position 16 (which the tests read back) and at 31. -/

/-- A fresh array of 64 bits. -/
def fresh64 : MyBitArray := ⟨64, 1, 2, [0, 0]⟩

/-- A heap that gives what it is asked for. -/
def quietHeap : Heap := ⟨true, fun _ => 0⟩

theorem fresh64_wordsOk : fresh64.WordsOk := ⟨by decide, by decide, by decide⟩

theorem singleBitSpec_fresh64_16 :
    SingleBitSpec quietHeap fresh64 16 ↔ (16#64).toNat % 64 < 31 :=
  singleBitSpec_iff quietHeap fresh64 16 fresh64_wordsOk (by decide)

/-- `bit_array_set_bit (ba, 31)` on a fresh array sets position 32 as well. The literal is
    `INT_MIN`, and as a 64-bit word it has all its upper half set. -/
theorem setBit_31_spills :
    ¬ ∀ (h : Heap) (a : MyBitArray) (i : Word), a.WordsOk → i < a.numOfBits →
      SingleBitSpec h a i := by
  intro hall
  obtain ⟨b, hb, hset⟩ := (hall quietHeap fresh64 31 fresh64_wordsOk (by decide)).set
  have hrun : bitArraySetBit shlOne quietHeap fresh64 31 =
      some ⟨64, 1, 2, [0xFFFFFFFF80000000, 0]⟩ := by decide
  rw [hrun, Option.some.injEq] at hb
  have hfixed := hset.away 32 (by decide)
  rw [← hb] at hfixed
  exact absurd hfixed (by decide)

end CompTech.BitArray
