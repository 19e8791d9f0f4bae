import CompTech.BitArray.Region

/-!
# The words a find function loads

The two find functions are the only calls that can look at a word behind the array. They turn a
start beyond `num_of_bits` down, but let `num_of_bits` itself through, and then load the word it
would lie in before they test anything. The loop behind that load stops at `num_of_words`.

`findIndices` lists the loads in order. That the list is the right one is `find_isSome_iff`: the
function is defined, which is to say that it meets no load outside its block, exactly when every
index of the list lies inside the block. Where the indices lie is `find_lt_iff`: all of them are
below `capacity`, unless the search starts at the end of an array that fills its capacity.

The module stands in front of the runs, since what a run may do with a find depends on it.
-/

namespace CompTech.BitArray

open MyBitArray

/-! ## The indices -/

/-- The loads of the loop, after the one in front of it. -/
def findLoopIndices (view : Word → Word) (a : MyBitArray) : Nat → Word → Word → List Nat
  | 0, _, _ => []
  | fuel + 1, iWord, curWord =>
    let pos := iWord * WORD_SIZE + BitVec.ofNat 64 (ffsll curWord) - 1
    if curWord > 0 ∧ pos < a.numOfBits then []
    else
      let iWord := iWord + 1
      if iWord ≥ a.numOfWords then []
      else iWord.toNat :: (readWord a.buffBits iWord).elim [] fun w =>
        findLoopIndices view a fuel iWord (view w)

/-- `first` is what the function makes of the first word and its mask. -/
def findIndices (view : Word → Word) (first : Word → Word → Word) (a : MyBitArray)
    (start : Word) : List Nat :=
  if start > a.numOfBits then []
  else
    let iWord := numbOfWord64 start
    iWord.toNat :: (readWord a.buffBits iWord).elim [] fun w =>
      (bitMask64 (indxInWord64 start)).elim [] fun mask =>
        findLoopIndices view a (a.numOfWords.toNat + 1) iWord (first w mask)

/-- The loads of `bit_array_find_set_bit`. -/
def findSetIndices : MyBitArray → Word → List Nat := findIndices id fun w mask => w &&& ~~~mask

/-- The loads of `bit_array_find_clear_bit`. -/
def findClearIndices : MyBitArray → Word → List Nat :=
  findIndices (~~~ ·) fun w mask => ~~~(w ||| mask)

/-! ## They are the ones -/

section Defined

variable {a : MyBitArray} {start : Word}

/-- A load is defined inside the block. -/
theorem readWord_isSome_iff {buf : List Word} {i : Word} :
    (readWord buf i).isSome = true ↔ i.toNat < buf.length := by
  rw [readWord, Option.isSome_iff_exists]
  constructor
  · rintro ⟨w, hw⟩
    exact (List.getElem?_eq_some_iff.mp hw).1
  · intro hi
    exact ⟨_, List.getElem?_eq_getElem hi⟩

/-- Induction on the rounds that are left; there are always enough of them. -/
theorem findLoop_isSome_iff (view : Word → Word) (hwords : a.numOfWords.toNat < 2 ^ 63) :
    ∀ (fuel : Nat) (iWord curWord : Word), 0 < fuel → a.numOfWords.toNat ≤ iWord.toNat + fuel →
      iWord.toNat < 2 ^ 63 → ((findLoop view a fuel iWord curWord).isSome = true ↔
        ∀ i ∈ findLoopIndices view a fuel iWord curWord, i < a.buffBits.length) := by
  intro fuel
  induction fuel with
  | zero => intro _ _ h; exact absurd h (Nat.lt_irrefl 0)
  | succ fuel ih =>
    intro iWord curWord _ hfuel hsmall
    unfold findLoop findLoopIndices
    dsimp only
    split
    · simp
    · have hnext : (iWord + 1).toNat = iWord.toNat + 1 := by
        have hone : (1 : Word).toNat = 1 := rfl
        rw [BitVec.toNat_add]
        omega
      split
      · simp
      · rename_i hin
        have hlt : (iWord + 1).toNat < a.numOfWords.toNat := Nat.lt_of_not_le hin
        rw [List.forall_mem_cons, ← readWord_isSome_iff]
        cases readWord a.buffBits (iWord + 1) with
        | none => simp
        | some w =>
          simp only [Option.bind_some, Option.isSome_some, true_and, Option.elim_some]
          exact ih (iWord + 1) (view w) (by omega) (by omega) (by omega)

/-- A find function: `first` is what it makes of its first word. -/
theorem find_isSome_iff (view : Word → Word) (first : Word → Word → Word)
    (hwords : a.numOfWords.toNat < 2 ^ 63) :
    (if start > a.numOfBits then some none else do
      let w ← readWord a.buffBits (numbOfWord64 start)
      let mask ← bitMask64 (indxInWord64 start)
      findLoop view a (a.numOfWords.toNat + 1) (numbOfWord64 start)
        (first w mask)).isSome = true ↔
      ∀ i ∈ findIndices view first a start, i < a.buffBits.length := by
  have hstart := start.isLt
  have hdiv := toNat_numbOfWord64 start
  unfold findIndices
  by_cases hbeyond : start > a.numOfBits
  · simp [hbeyond]
  · rw [if_neg hbeyond, if_neg hbeyond]
    dsimp only
    rw [List.forall_mem_cons, ← readWord_isSome_iff, bitMask64_indx]
    cases readWord a.buffBits (numbOfWord64 start) with
    | none => simp
    | some w =>
      simp only [Option.bind_eq_bind, Option.bind_some, Option.isSome_some, true_and,
        Option.elim_some]
      exact findLoop_isSome_iff view hwords _ _ _ (by omega) (by omega) (by omega)

theorem findSet_isSome_iff (hwords : a.numOfWords.toNat < 2 ^ 63) :
    (bitArrayFindSetBit a start).isSome = true ↔
      ∀ i ∈ findSetIndices a start, i < a.buffBits.length :=
  find_isSome_iff id (fun w mask => w &&& ~~~mask) hwords

theorem findClear_isSome_iff (hwords : a.numOfWords.toNat < 2 ^ 63) :
    (bitArrayFindClearBit a start).isSome = true ↔
      ∀ i ∈ findClearIndices a start, i < a.buffBits.length :=
  find_isSome_iff (~~~ ·) (fun w mask => ~~~(w ||| mask)) hwords

end Defined

/-! ## Where they lie -/

section Below

variable {a : MyBitArray} {start : Word}

theorem findLoop_lt (view : Word → Word) : ∀ (fuel : Nat) (iWord curWord : Word),
    ∀ i ∈ findLoopIndices view a fuel iWord curWord, i < a.numOfWords.toNat := by
  intro fuel
  induction fuel with
  | zero => intro _ _ i hi; cases hi
  | succ fuel ih =>
    intro iWord curWord i hi
    unfold findLoopIndices at hi
    dsimp only at hi
    split at hi
    · cases hi
    · split at hi
      · cases hi
      · rename_i hin
        rcases List.mem_cons.mp hi with rfl | hi
        · exact Nat.lt_of_not_le hin
        · cases hw : readWord a.buffBits (iWord + 1) with
          | none => rw [hw] at hi; cases hi
          | some w =>
            rw [hw] at hi
            exact ih _ _ i hi

/-- Only the first load can leave the words in use, and only from the end of a full array. -/
theorem find_lt_iff (view : Word → Word) (first : Word → Word → Word) (ha : RunInv a) :
    (∀ i ∈ findIndices view first a start, i < a.capacity.toNat) ↔
      ¬(start = a.numOfBits ∧ a.numOfBits.toNat = 64 * a.capacity.toNat) := by
  have hwords := ha.words
  have hfits := ha.fits
  unfold findIndices
  by_cases hbeyond : start > a.numOfBits
  · rw [if_pos hbeyond]
    refine ⟨fun _ hend => ?_, fun _ i hi => by cases hi⟩
    have hlt : a.numOfBits.toNat < start.toNat := hbeyond
    rw [hend.1] at hlt
    exact Nat.lt_irrefl _ hlt
  · have hle : start.toNat ≤ a.numOfBits.toNat := Nat.le_of_not_lt hbeyond
    rw [if_neg hbeyond]
    dsimp only
    rw [List.forall_mem_cons, toNat_numbOfWord64]
    have hrest : ∀ i ∈ (readWord a.buffBits (numbOfWord64 start)).elim [] fun w =>
        (bitMask64 (indxInWord64 start)).elim [] fun mask =>
          findLoopIndices view a (a.numOfWords.toNat + 1) (numbOfWord64 start) (first w mask),
        i < a.capacity.toNat := by
      intro i hi
      cases hw : readWord a.buffBits (numbOfWord64 start) with
      | none => rw [hw] at hi; cases hi
      | some w =>
        rw [hw] at hi
        cases hm : bitMask64 (indxInWord64 start) with
        | none => rw [hm] at hi; cases hi
        | some mask =>
          rw [hm] at hi
          exact (findLoop_lt view _ _ _ i hi).trans_le hfits
    constructor
    · rintro ⟨hfirst, -⟩ ⟨rfl, hfull⟩
      omega
    · intro hend
      refine ⟨?_, hrest⟩
      by_cases heq : start = a.numOfBits
      · have hnot : a.numOfBits.toNat ≠ 64 * a.capacity.toNat := fun hfull => hend ⟨heq, hfull⟩
        rw [heq]
        omega
      · have hne : start.toNat ≠ a.numOfBits.toNat := fun h => heq (BitVec.eq_of_toNat_eq h)
        omega

/-- So in every other case the search comes to an answer. -/
theorem find_isSome (view : Word → Word) (first : Word → Word → Word) (ha : RunInv a)
    (hend : ¬(start = a.numOfBits ∧ a.numOfBits.toNat = 64 * a.capacity.toNat)) :
    (if start > a.numOfBits then some none else do
      let w ← readWord a.buffBits (numbOfWord64 start)
      let mask ← bitMask64 (indxInWord64 start)
      findLoop view a (a.numOfWords.toNat + 1) (numbOfWord64 start)
        (first w mask)).isSome = true := by
  have hwords : a.numOfWords.toNat < 2 ^ 63 := by
    have hfits := ha.fits
    have hcap := ha.cap_le
    omega
  refine (find_isSome_iff view first hwords).mpr fun i hi => ?_
  exact ((find_lt_iff view first ha).mpr hend i hi).trans_le ha.alloc

end Below

end CompTech.BitArray
