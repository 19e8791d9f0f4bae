import CompTech.Lib.Bits
import CompTech.Lib.Stores

/-!
# The bit array

`bit_array.c`, function by function. A `my_bit_array` is its four fields, with the heap block
behind `buff_bits` as a list: the length of the list is the number of 64-bit words really
allocated, which the struct itself does not record. Everything the C code computes with
64-bit unsigned integers is computed here with `BitVec 64`, so the wraps are the code's.

**`none` is undefined behaviour**: an access outside the block, a `memset` past its end, a
shift count the C standard gives no meaning to. A function that answers `some` has met none
of these on the way.

Three things come from outside the file and are parameters: whether an allocation succeeds,
what a freshly obtained word holds (`Heap`), and — for the single-bit calls only — the value
of the expression `1 << (index % WORD_SIZE)`. The last one is a parameter because the
literal is an `int`: `shlOne` is what C makes of it, and a result that does not depend on it
says so by quantifying over the parameter.

The functions that start with `bit_array == NULL` return at once there; only the non-null
case is modelled.

The order is that of the file. A family of functions that differ in an operator is one definition
with the operator as a parameter, and each member is that definition applied to its own
(`bitArrayUpdateBit`, `bitArrayRegion`, `findLoop`).
-/

namespace CompTech.BitArray

/-- A `uint64_t`. -/
abbrev Word := BitVec 64

/-- The bits of a word. The code multiplies by it where a size in bytes is meant, too: a block from
    `realloc` has eight times the words that are noted. -/
def WORD_SIZE : Word := 64#64
/-- The words a fresh array has at least. -/
def MIN_CAPACITY : Word := 2#64

/-- A `my_bit_array`. -/
structure MyBitArray where
  numOfBits : Word
  -- the words in use
  numOfWords : Word
  -- the words it takes the block to have
  capacity : Word
  buffBits : List Word
  deriving DecidableEq, Repr

/-- The allocator, as one call sees it. -/
structure Heap where
  -- the next `malloc`, `calloc` or `realloc` does not return `NULL`
  succeeds : Bool
  -- what the `i`-th word of a grown block holds before anything is stored in it
  junk : Nat → Word

/-! ## bit opers -/

/-- All ones. -/
def WORD_MAX : Word := BitVec.allOnes 64
/-- All zeros. -/
def WORD_MIN : Word := 0#64

/-- The words it takes for so many bits. The sum wraps for the last 63 numbers of bits. -/
def roundupBitsToWords (bits : Word) : Word := (bits + WORD_SIZE - 1) / WORD_SIZE
/-- The word of a position. -/
def numbOfWord64 (pos : Word) : Word := pos >>> 6
/-- And its place in there. -/
def indxInWord64 (pos : Word) : Word := pos &&& (WORD_SIZE - 1)

/-- `WORD_MAX << (WORD_SIZE - length)`; the shift has no meaning from 64 on. -/
def bitMask64 (length : Word) : Option Word :=
  if length ≠ 0 then
    if WORD_SIZE - length < 64 then some (WORD_MAX <<< (WORD_SIZE - length).toNat) else none
  else
    some WORD_MIN

/-- The next power of two: the highest bit of `word64 - 1` is spread over all places below it. -/
def roundupWord64ToPow2 (word64 : Word) : Word :=
  let w := word64 - 1
  let w := w ||| (w >>> 1)
  let w := w ||| (w >>> 2)
  let w := w ||| (w >>> 4)
  let w := w ||| (w >>> 8)
  let w := w ||| (w >>> 16)
  let w := w ||| (w >>> 32)
  let w := w + 1
  -- 0 would come out as 0
  w + (if w = 0 then 1 else 0)

/-- `1 << k` for the `int` literal: 32 bits wide, undefined from 32 on, and sign-extended
    when it meets the 64-bit word. -/
def shlOne (k : Word) : Option Word :=
  if k < 32 then some (((1#32) <<< k.toNat).signExtend 64) else none

/-! ## The buffer -/

/-- A load from the block. -/
def readWord (buf : List Word) (i : Word) : Option Word := buf[i.toNat]?

/-- `memset (buf + off, 0, bytes)`; the sizes the code asks for are whole words. -/
def memsetZero (buf : List Word) (off bytes : Word) : Option (List Word) :=
  if off.toNat + bytes.toNat / 8 ≤ buf.length then
    some (buf.mapIdx fun i w => if off.toNat ≤ i ∧ i < off.toNat + bytes.toNat / 8 then 0 else w)
  else
    none

/-- `realloc (buf, bytes)`. A request for zero bytes frees the block and returns `NULL`. -/
def realloc (h : Heap) (buf : List Word) (bytes : Word) : Option (List Word) :=
  if h.succeeds ∧ bytes ≠ 0 then
    some ((List.range (bytes.toNat / 8)).map fun i => buf.getD i (h.junk i))
  else
    none

/-! ## resize -/

/-- The `char` it returns and the array it leaves. When `realloc` fails the old pointer is
    put back, but the three fields keep their new values. -/
def bitArrayResize (h : Heap) (a : MyBitArray) (newNumOfBits : Word) :
    Option (Nat × MyBitArray) :=
  let oldNumOfWords := a.numOfWords
  let newNumOfWords := roundupBitsToWords newNumOfBits
  let a₁ := { a with numOfBits := newNumOfBits, numOfWords := newNumOfWords }
  if newNumOfWords > a.capacity then
    let oldCapacityInWords := a.capacity
    let oldCapacityInBytes := a.capacity * WORD_SIZE
    let capacity := roundupWord64ToPow2 newNumOfWords
    let newCapacityInBytes := capacity * WORD_SIZE
    let a₂ := { a₁ with capacity := capacity }
    match realloc h a.buffBits newCapacityInBytes with
    | none =>
      -- `realloc (p, 0)` has freed the block the old pointer is put back to
      some (1, if newCapacityInBytes = 0 then { a₂ with buffBits := [] } else a₂)
    | some buf =>
      (memsetZero buf oldCapacityInWords (newCapacityInBytes - oldCapacityInBytes)).map
        fun buf => (0, { a₂ with buffBits := buf })
  -- shrinking clears the words that go out of use
  else if newNumOfWords < oldNumOfWords then
    (memsetZero a.buffBits newNumOfWords ((oldNumOfWords - newNumOfWords) * 8)).map
      fun buf => (0, { a₁ with buffBits := buf })
  else
    some (0, a₁)

/-! ## constr, init -/

/-- `calloc` gives zeroed words; `none` is a `NULL` buffer, reported through `errno`. -/
def bitArrayInit (h : Heap) (numOfBits : Word) : Option MyBitArray :=
  let numOfWords := roundupBitsToWords numOfBits
  let word64ToPow2 := roundupWord64ToPow2 numOfWords
  -- a fresh array gets two words at least
  let capacity := if word64ToPow2 > MIN_CAPACITY then word64ToPow2 else MIN_CAPACITY
  if h.succeeds then
    some ⟨numOfBits, numOfWords, capacity, List.replicate capacity.toNat 0⟩
  else
    none

/-- The struct from `malloc`, then `bit_array_init`; `none` is the `NULL` it returns when
    either allocation failed. -/
def bitArrayConstruct (mallocSucceeds : Bool) (h : Heap) (numOfBits : Word) :
    Option MyBitArray :=
  if mallocSucceeds then bitArrayInit h numOfBits else none

/-- `bit_array_length`. -/
def bitArrayLength (a : MyBitArray) : Word := a.numOfBits

/-! ## bit operations (1 bit)

`shl k` is the value of `1 << k`. It is asked for only on the path that shifts: an index that
is out of range goes to `bit_array_resize`, whose result all four calls drop. The three calls
that write differ in how the mask `m` is combined with the word. -/

/-- The three calls that write. -/
def bitArrayUpdateBit (op : Word → Word → Word) (shl : Word → Option Word) (h : Heap)
    (a : MyBitArray) (index : Word) : Option MyBitArray :=
  if index ≥ a.numOfBits then
    (bitArrayResize h a index).map (·.2)
  else do
    let m ← shl (index % WORD_SIZE)
    let buf ← Lib.storeAt a.buffBits (index / WORD_SIZE).toNat (op · m)
    return { a with buffBits := buf }

/-- `bit_array_set_bit`. -/
def bitArraySetBit : (Word → Option Word) → Heap → MyBitArray → Word → Option MyBitArray :=
  bitArrayUpdateBit fun w m => w ||| m

/-- `bit_array_clear_bit`. -/
def bitArrayClearBit : (Word → Option Word) → Heap → MyBitArray → Word → Option MyBitArray :=
  bitArrayUpdateBit fun w m => w &&& ~~~m

/-- `bit_array_toggle_bit`. -/
def bitArrayToggleBit : (Word → Option Word) → Heap → MyBitArray → Word → Option MyBitArray :=
  bitArrayUpdateBit fun w m => w ^^^ m

/-- The `int` it returns comes first. -/
def bitArrayGetBit (shl : Word → Option Word) (h : Heap) (a : MyBitArray) (index : Word) :
    Option (Nat × MyBitArray) :=
  if index ≥ a.numOfBits then
    (bitArrayResize h a index).map fun r => (0, r.2)
  else do
    let m ← shl (index % WORD_SIZE)
    let w ← readWord a.buffBits (index / WORD_SIZE)
    return (if w &&& m ≠ 0#64 then 1 else 0, a)

/-! ## bit operation (region)

The three functions have one shape and differ in what they do to a word: to the only word
of a short region (under the mask of `bit_mask_64 (length) << first_offset`), to the first
word (under `bit_mask_64 (first_offset)`), to the words between, and to the last one (under
`bit_mask_64 (last_offset + 1)`). -/

/-- The three functions on a region. -/
def bitArrayRegion (only first : Word → Word → Word) (between : Word → Word)
    (last : Word → Word → Word) (a : MyBitArray) (start length : Word) :
    Option MyBitArray :=
  if length = 0 then some a
  else
    let firstWord := numbOfWord64 start
    let firstOffset := indxInWord64 start
    let lastWord := numbOfWord64 (start + length - 1)
    let lastOffset := indxInWord64 (start + length - 1)
    if firstWord = lastWord then do
      let m ← bitMask64 length
      let mask := m <<< firstOffset.toNat
      let buf ← Lib.storeAt a.buffBits firstWord.toNat (only · mask)
      return { a with buffBits := buf }
    else do
      -- `bit_mask_64 (n)` is the `n` highest places of a word, not the `n` lowest
      let mask ← bitMask64 firstOffset
      let buf ← Lib.storeAt a.buffBits firstWord.toNat (first · mask)
      let buf ← (List.range' (firstWord.toNat + 1) (lastWord.toNat - (firstWord.toNat + 1))).foldlM
        (fun buf iWord => Lib.storeAt buf iWord between) buf
      let mask ← bitMask64 (lastOffset + 1)
      let buf ← Lib.storeAt buf lastWord.toNat (last · mask)
      return { a with buffBits := buf }

/-- `bit_array_set_region`. -/
def bitArraySetRegion : MyBitArray → Word → Word → Option MyBitArray :=
  bitArrayRegion (fun w mask => w ||| mask) (fun w mask => w ||| ~~~mask)
    (fun _ => WORD_MAX) (fun w mask => w ||| mask)

/-- `bit_array_clear_region`. -/
def bitArrayClearRegion : MyBitArray → Word → Word → Option MyBitArray :=
  bitArrayRegion (fun w mask => w &&& ~~~mask) (fun w mask => w &&& mask)
    (fun _ => WORD_MIN) (fun w mask => w &&& ~~~mask)

/-- `bit_array_toggle_region`. -/
def bitArrayToggleRegion : MyBitArray → Word → Word → Option MyBitArray :=
  bitArrayRegion (fun w mask => w ^^^ mask) (fun w mask => w ^^^ ~~~mask)
    (fun w => w ^^^ WORD_MAX) (fun w mask => w ^^^ mask)

/-! ## find funcs -/

/-- `__builtin_ffsll`: one plus the place of the lowest set bit, `0` for a zero word. -/
def ffsll (w : Word) : Nat :=
  match (List.range 64).find? (w.getLsbD ·) with
  | some i => i + 1
  | none => 0

/-- The loop of the two find functions; `view` is what they do to a word they load. The
    answer is `some pos` when the function stores `pos` and returns 1, and `none` when it
    returns 0. Every round but the last moves `i_word` up and stays below `num_of_words`,
    so `num_of_words + 1` rounds are more than the loop can take. -/
def findLoop (view : Word → Word) (a : MyBitArray) :
    Nat → Word → Word → Option (Option Word)
  -- not reached
  | 0, _, _ => none
  | fuel + 1, iWord, curWord =>
    let pos := iWord * WORD_SIZE + BitVec.ofNat 64 (ffsll curWord) - 1
    if curWord > 0 ∧ pos < a.numOfBits then some (some pos)
    else
      let iWord := iWord + 1
      if iWord ≥ a.numOfWords then some none
      else (readWord a.buffBits iWord).bind fun w => findLoop view a fuel iWord (view w)

/-- `bit_array_find_set_bit`. The first word is loaded before the loop and the places before `start`
    are masked out of it; a start of `num_of_bits` is let through. -/
def bitArrayFindSetBit (a : MyBitArray) (start : Word) : Option (Option Word) :=
  if start > a.numOfBits then some none
  else do
    let iWord := numbOfWord64 start
    let w ← readWord a.buffBits iWord
    let mask ← bitMask64 (indxInWord64 start)
    findLoop id a (a.numOfWords.toNat + 1) iWord (w &&& ~~~mask)

/-- `bit_array_find_clear_bit`: the same in the complement. -/
def bitArrayFindClearBit (a : MyBitArray) (start : Word) : Option (Option Word) :=
  if start > a.numOfBits then some none
  else do
    let iWord := numbOfWord64 start
    let w ← readWord a.buffBits iWord
    let mask ← bitMask64 (indxInWord64 start)
    findLoop (~~~ ·) a (a.numOfWords.toNat + 1) iWord (~~~(w ||| mask))

/-! ## foreach -/

/-- One round: `ret_func += func (bit_array_get_bit (bit_array, i), data, result)`. `func` is
    the callback, as what it returns and what it leaves behind its two pointers. -/
def foreachRound {δ : Type} (shl : Word → Option Word) (h : Heap) (func : Nat → δ → Int × δ)
    (x : Int × δ × MyBitArray) (i : Nat) : Option (Int × δ × MyBitArray) := do
  let (bit, a) ← bitArrayGetBit shl h x.2.2 (BitVec.ofNat 64 i)
  let (r, data) := func bit x.2.1
  return (x.1 + r, data, a)

/-- The accumulated `long`, the pointed-to data and the array are threaded through the loop. -/
def bitArrayForeach {δ : Type} (shl : Word → Option Word) (h : Heap)
    (func : Nat → δ → Int × δ) (a : MyBitArray) (data : δ) : Option (Int × δ × MyBitArray) :=
  (List.range a.numOfBits.toNat).foldlM (foreachRound shl h func) (0, data, a)

end CompTech.BitArray
