import CompTech.BitArray.Runs

/-!
# The word indices a call uses

`Call.indices` lists, for each call of the interface, the indices into `buff_bits` it loads from
or stores to, in order. That the list is the right one is `single_isSome_iff`,
`region_isSome_iff`, `find_isSome_iff` and `foreach_isSome_iff`: the call is defined — it meets
no access outside its block — exactly when every index of the list lies inside the block.

In every run all of them are below `capacity` but one (`indices_lt_iff`): the two find functions
turn down a start beyond `num_of_bits` and let `num_of_bits` itself through, so on an array that
fills its capacity they load the word behind it. The single-bit calls, which test with `>=`,
have no such case.

The two find functions have their lists in `Loads`.
-/

namespace CompTech.BitArray

open MyBitArray

/-! ## The indices, function by function -/

/-- A single-bit call uses the word of its index, when it is in range. -/
def singleIndices (a : MyBitArray) (index : Word) : List Nat :=
  if index ≥ a.numOfBits then [] else [(index / WORD_SIZE).toNat]

/-- A region from its first word to its last. -/
def regionIndices (start length : Word) : List Nat :=
  if length = 0 then []
  else
    let firstWord := (numbOfWord64 start).toNat
    let lastWord := (numbOfWord64 (start + length - 1)).toNat
    if firstWord = lastWord then [firstWord]
    else firstWord :: List.range' (firstWord + 1) (lastWord - (firstWord + 1)) ++ [lastWord]

/-- Every position reads its word. -/
def foreachIndices (a : MyBitArray) : List Nat :=
  (List.range a.numOfBits.toNat).flatMap fun i => singleIndices a (BitVec.ofNat 64 i)

/-- The indices of a call. -/
def Call.indices (a : MyBitArray) : Call → List Nat
  | .setBit index | .clearBit index | .getBit index | .toggleBit index => singleIndices a index
  | .setRegion start len | .clearRegion start len | .toggleRegion start len =>
      regionIndices start len
  | .findSetBit start => findSetIndices a start
  | .findClearBit start => findClearIndices a start
  | .foreach _ _ => foreachIndices a
  | .length => []

/-! ## They are the ones -/

section Defined

variable {a : MyBitArray} {h : Heap} {m : Word → Word} {index start len : Word}

theorem single_isSome_iff (op : Word → Word → Word) (hi : index < a.numOfBits) :
    (bitArrayUpdateBit op (anyMask m) h a index).isSome = true ↔
      ∀ i ∈ singleIndices a index, i < a.buffBits.length := by
  rw [singleIndices, if_neg (BitVec.not_le.mpr hi), bitArrayUpdateBit,
    if_neg (BitVec.not_le.mpr hi), List.forall_mem_singleton,
    ← Lib.storeAt_isSome_iff (f := (op · (m (index % WORD_SIZE))))]
  simp only [anyMask, Option.bind_eq_bind, Option.bind_some]
  cases Lib.storeAt a.buffBits (index / WORD_SIZE).toNat (op · (m (index % WORD_SIZE))) <;> simp

theorem region_isSome_iff (only first : Word → Word → Word) (between : Word → Word)
    (last : Word → Word → Word) (hle : start.toNat + len.toNat ≤ a.numOfBits.toNat) :
    (bitArrayRegion only first between last a start len).isSome = true ↔
      ∀ i ∈ regionIndices start len, i < a.buffBits.length := by
  have hbits := a.numOfBits.isLt
  unfold regionIndices bitArrayRegion
  by_cases hlen : len = 0
  · simp [hlen]
  have hpos := toNat_pos_of_ne_zero hlen
  have hend := toNat_regionEnd hlen (hle.trans_lt hbits)
  have hdiv := toNat_numbOfWord64 start
  have hdiv' := toNat_numbOfWord64 (start + len - 1)
  rw [hend] at hdiv'
  simp only [if_neg hlen]
  by_cases hsame : numbOfWord64 start = numbOfWord64 (start + len - 1)
  · have hmask : bitMask64 len = some (topBits len.toNat) := by
      rw [← hsame, hdiv] at hdiv'
      exact bitMask64_eq (by omega)
    rw [if_pos hsame, if_pos (congrArg BitVec.toNat hsame), List.forall_mem_singleton, hmask,
      ← Lib.storeAt_isSome_iff (f := (only · (topBits len.toNat <<< (indxInWord64 start).toNat)))]
    simp only [Option.bind_eq_bind, Option.bind_some]
    cases Lib.storeAt a.buffBits (numbOfWord64 start).toNat _ <;> simp
  · have hne : (numbOfWord64 start).toNat ≠ (numbOfWord64 (start + len - 1)).toNat :=
      fun h => hsame (BitVec.eq_of_toNat_eq h)
    have hlt : (numbOfWord64 start).toNat < (numbOfWord64 (start + len - 1)).toNat := by omega
    simp only [if_neg hsame, if_neg hne, bitMask64_indx, bitMask64_indx_succ,
      Option.bind_eq_bind, Option.bind_some]
    -- the last index is the greatest
    have hall : (∀ i ∈ (numbOfWord64 start).toNat ::
        List.range' ((numbOfWord64 start).toNat + 1) ((numbOfWord64 (start + len - 1)).toNat -
          ((numbOfWord64 start).toNat + 1)) ++ [(numbOfWord64 (start + len - 1)).toNat],
        i < a.buffBits.length) ↔ (numbOfWord64 (start + len - 1)).toNat < a.buffBits.length := by
      constructor
      · exact fun h => h _ (by simp)
      · intro h i hi
        simp only [List.cons_append, List.mem_cons, List.mem_append, List.mem_range'_1,
          List.not_mem_nil, or_false] at hi
        omega
    rw [hall]
    constructor
    · intro hsome
      obtain ⟨b, hb⟩ := Option.isSome_iff_exists.mp hsome
      obtain ⟨buf₁, h₁, hb⟩ := Option.bind_eq_some_iff.mp hb
      obtain ⟨buf₂, h₂, hb⟩ := Option.bind_eq_some_iff.mp hb
      obtain ⟨buf₃, h₃, -⟩ := Option.bind_eq_some_iff.mp hb
      have hlast := Lib.storeAt_isSome_iff.mp (Option.isSome_of_eq_some h₃)
      rwa [Lib.length_foldlM_storeAt h₂, Lib.length_storeAt h₁] at hlast
    · intro hlast
      rw [Lib.storeAt_of_lt _ (by omega), Option.bind_some,
        Lib.foldlM_storeAt _ _ _ _ (by rw [List.length_mapIdx]; omega), Option.bind_some,
        Lib.storeAt_of_lt _ (by rw [List.length_mapIdx, List.length_mapIdx]; exact hlast)]
      rfl

/-- In range `bit_array_get_bit` is one load. -/
theorem getBit_eq_map (hi : index < a.numOfBits) :
    bitArrayGetBit (anyMask m) h a index = (readWord a.buffBits (index / WORD_SIZE)).map
      fun w => (if w &&& m (index % WORD_SIZE) ≠ 0#64 then 1 else 0, a) := by
  rw [bitArrayGetBit, if_neg (BitVec.not_le.mpr hi)]
  simp only [anyMask, Option.bind_eq_bind, Option.bind_some]
  cases readWord a.buffBits (index / WORD_SIZE) <;> rfl

theorem getBit_isSome_iff (hi : index < a.numOfBits) :
    (bitArrayGetBit (anyMask m) h a index).isSome = true ↔
      ∀ i ∈ singleIndices a index, i < a.buffBits.length := by
  rw [getBit_eq_map hi, Option.isSome_map, singleIndices, if_neg (BitVec.not_le.mpr hi),
    List.forall_mem_singleton, readWord_isSome_iff]

/-- Induction on the positions still to visit. -/
theorem foreach_isSome_iff {δ : Type} (func : Nat → δ → Int × δ) (data : δ) :
    (bitArrayForeach (anyMask m) h func a data).isSome = true ↔
      ∀ i ∈ foreachIndices a, i < a.buffBits.length := by
  suffices hloop : ∀ (l : List Nat), (∀ i ∈ l, i < a.numOfBits.toNat) → ∀ (r : Int) (d : δ),
      ((l.foldlM (foreachRound (anyMask m) h func) (r, d, a)).isSome = true ↔
        ∀ i ∈ l.flatMap fun i => singleIndices a (BitVec.ofNat 64 i), i < a.buffBits.length) from
    hloop _ (fun i hi => List.mem_range.mp hi) 0 data
  intro l
  induction l with
  | nil => intro _ r d; simp
  | cons i l ih =>
    intro hl r d
    have hbits := a.numOfBits.isLt
    have hi : BitVec.ofNat 64 i < a.numOfBits := by
      show (BitVec.ofNat 64 i).toNat < a.numOfBits.toNat
      have hlt := hl i List.mem_cons_self
      rw [BitVec.toNat_ofNat]
      omega
    rw [List.foldlM_cons, List.flatMap_cons, List.forall_mem_append,
      ← getBit_isSome_iff (h := h) (m := m) hi, foreachRound, getBit_eq_map hi]
    cases readWord a.buffBits (BitVec.ofNat 64 i / WORD_SIZE) with
    | none => simp
    | some w => simpa using ih (fun j hj => hl j (List.mem_cons_of_mem _ hj)) _ _

end Defined

/-! ## Where they lie -/

section Below

variable {a : MyBitArray} {start len : Word}

/-- The words in use are below the capacity. -/
theorem single_lt (ha : RunInv a) (index : Word) :
    ∀ i ∈ singleIndices a index, i < a.capacity.toNat := by
  intro i hi
  unfold singleIndices at hi
  split at hi
  · cases hi
  · rename_i hin
    have hlt := ha.toWordsOk.index_lt (BitVec.not_le.mp hin)
    have hfits := ha.fits
    rw [List.mem_singleton] at hi
    subst hi
    rw [BitVec.toNat_udiv, toNat_WORD_SIZE]
    omega

theorem region_lt (ha : RunInv a) (hle : start.toNat + len.toNat ≤ a.numOfBits.toNat) :
    ∀ i ∈ regionIndices start len, i < a.capacity.toNat := by
  intro i hi
  have hwords := ha.words
  have hfits := ha.fits
  have hbits := a.numOfBits.isLt
  unfold regionIndices at hi
  by_cases hlen : len = 0
  · rw [if_pos hlen] at hi
    cases hi
  · have hpos := toNat_pos_of_ne_zero hlen
    have hend := toNat_regionEnd hlen (hle.trans_lt hbits)
    rw [if_neg hlen] at hi
    simp only [toNat_numbOfWord64, hend] at hi
    split at hi
    · rw [List.mem_singleton] at hi
      omega
    · simp only [List.cons_append, List.mem_cons, List.mem_append, List.mem_range'_1,
        List.not_mem_nil, or_false] at hi
      omega

end Below

/-- **The indices of a call.** Whatever calls in scope are made on a constructed array, the next
    call in scope uses only word indices below `capacity`, unless it is a find from the end of an
    array that fills its capacity: then it does not. The single-bit calls and the regions are below
    because what they address is in range; the finds because their loop stops at `num_of_words`, all
    but the load in front of it. -/
theorem indices_lt_iff {n : Word} (hn : n.toNat ≤ 2 ^ 63) {heap : Heap} {a₀ : MyBitArray}
    (h₀ : bitArrayConstruct true heap n = some a₀) {es : List Event} {a : MyBitArray}
    (hr : Lib.Run Event.apply InScope a₀ es a) {e : Event} (he : InScope a e) :
    (∀ i ∈ e.call.indices a, i < a.capacity.toNat) ↔ ¬e.call.FromTheEnd a := by
  have ha : RunInv a := (RunInv.init hn h₀).run hr
  obtain ⟨call, mask, heap'⟩ := e
  have hc := he.2
  cases call with
  | setBit index | clearBit index | getBit index | toggleBit index =>
    exact ⟨fun _ hf => hf, fun _ => single_lt ha index⟩
  | setRegion start len | clearRegion start len | toggleRegion start len =>
    exact ⟨fun _ hf => hf, fun _ => region_lt ha hc⟩
  | findSetBit start | findClearBit start => exact find_lt_iff _ _ ha
  | foreach func data =>
    refine ⟨fun _ hf => hf, fun _ i hi => ?_⟩
    obtain ⟨j, -, hj⟩ := List.mem_flatMap.mp hi
    exact single_lt ha _ i hj
  | length => exact ⟨fun _ hf => hf, fun _ i hi => by cases hi⟩

/-- On an array that has grown, the search from its end stays in the block. -/
theorem indices_lt_growRun :
    ¬(Call.findSetBit 200).FromTheEnd (grown [0xF, 0xFFFFFFFFFFFFFFFF, 0xFFF0000000000000]) ∧
    ∀ i ∈ (Call.findSetBit 200).indices
      (grown [0xF, 0xFFFFFFFFFFFFFFFF, 0xFFF0000000000000]), i < 4 := by
  have hnot : ¬(Call.findSetBit 200).FromTheEnd
      (grown [0xF, 0xFFFFFFFFFFFFFFFF, 0xFFF0000000000000]) := by
    rintro ⟨-, hfull⟩
    exact absurd hfull (by decide)
  exact ⟨hnot, (indices_lt_iff (e := ⟨.findSetBit 200, fun _ => 0, quietHeap⟩) (by decide)
    (show bitArrayConstruct true quietHeap 64 = some fresh64 by decide) run_growRun
    ⟨rfl, trivial⟩).mpr hnot⟩

/-- `bit_array_find_set_bit (ba, 128)` on an array of 128 bits loads word 2 of 2. -/
theorem find_from_end : ¬ ∀ (n : Word), n.toNat ≤ 2 ^ 63 → ∀ (heap : Heap) (a₀ : MyBitArray),
    bitArrayConstruct true heap n = some a₀ → ∀ (es : List Event) (a : MyBitArray),
      Lib.Run Event.apply InScope a₀ es a → ∀ e, InScope a e →
        ∀ i ∈ e.call.indices a, i < a.capacity.toNat := by
  intro hall
  have hconstruct : bitArrayConstruct true quietHeap 128 = some ⟨128, 2, 2, [0, 0]⟩ := by decide
  have hlt := hall 128 (by decide) quietHeap _ hconstruct [] _ .nil
    ⟨.findSetBit 128, fun _ => 0, quietHeap⟩ ⟨rfl, trivial⟩ 2 (by decide)
  exact absurd hlt (by decide)

end CompTech.BitArray
