import CompTech.BitArray.Single
import CompTech.Lib.Printer

/-!
# bit_array_dump

The text that `bit_array_dump` writes: the three counts, the address of the buffer, and the words up
to `capacity`, least significant bit first, in four rows of four groups. `dump_eq_iff` says that
nothing is lost in it: two arrays with the same dump have the same counts and the same words. It
does not stop at `num_of_words`, so the part of the buffer that is not in use is in it as well.

What `%p` prints is up to the C library; no bracket is in it.
-/

namespace CompTech.BitArray

open Lib

/-- The two values that are returned. -/
def EXIT_SUCCESS : Nat := 0
def EXIT_FAILURE : Nat := 1

/-- `"%" PRIu64` -/
def PRIu64 (w : Word) : List Char := Nat.toDigits 10 w.toNat

/-- What stands in front of bit `i_bit`. -/
def gap (iBit : Nat) : List Char :=
  if iBit % 16 = 0 then "\n    ".toList else if iBit % 4 = 0 then " ".toList else []

/-- `"%ld"` there; the value is 0 or 1. -/
def dumpBit (word : Word) (iBit : Nat) : List Char := gap iBit ++ PRIu64 (word >>> iBit &&& 1#64)

/-- One word of the buffer, under its number. -/
def dumpWord (iWord : Nat) (word : Word) : List Char :=
  "    word[#".toList ++ Nat.toDigits 10 iWord ++ "]".toList ++
    (List.range WORD_SIZE.toNat).flatMap (dumpBit word) ++ "\n".toList

/-- The loop over the buffer; a word that is not in the block is undefined behaviour. -/
def dumpWords (buffBits : List Word) (capacity : Nat) : Option (List Char) :=
  (List.range capacity).foldlM
    (fun text iWord => (buffBits[iWord]?).map fun word => text ++ dumpWord iWord word) []

/-- What stands in front of the words. The four values are in brackets, which is what makes them
    readable again. -/
def dumpHead (a : MyBitArray) (address : List Char) : List Char :=
  "|-------------------------------------|\n".toList ++
  "|           DUMP BIT ARRAY            |\n".toList ++
  "|-------------------------------------|\n".toList ++
  "\n".toList ++
  "    num_of_bits  = [".toList ++ PRIu64 a.numOfBits ++ "];\n".toList ++
  "    num_of_words = [".toList ++ PRIu64 a.numOfWords ++ "];\n".toList ++
  "    capacity     = [".toList ++ PRIu64 a.capacity ++ "];\n".toList ++
  "    buff_bits    = [".toList ++ address ++ "];\n".toList ++
  "\n".toList ++
  "    Buffer bits:\n".toList

/-- And behind them. -/
def dumpTail : List Char :=
  "\n".toList ++
  "|-------------------------------------|\n".toList ++
  "|           END DUMP BIT ARRAY        |\n".toList ++
  "|-------------------------------------|\n".toList

/-- What is returned, and the file that is written. `opens` says whether `fopen` succeeds. -/
def bitArrayDump (opens : Bool) (address : List Char) :
    Option MyBitArray → Option (Nat × Option (List Char))
  | none => some (EXIT_FAILURE, none)
  | some a =>
    if opens = false then some (EXIT_FAILURE, none)
    else (dumpWords a.buffBits a.capacity.toNat).map fun words =>
      (EXIT_SUCCESS, some (dumpHead a address ++ words ++ dumpTail))

/-! ## The words -/

/-- A bit is printed as a digit. -/
theorem PRIu64_bit (word : Word) (i : Nat) :
    PRIu64 (word >>> i &&& 1#64) = if word.getLsbD i then ['1'] else ['0'] := by
  have hbit : word >>> i &&& 1#64 = if word.getLsbD i then 1#64 else 0#64 := by
    refine BitVec.eq_of_getLsbD_eq fun k hk => ?_
    rw [BitVec.getLsbD_and, BitVec.getLsbD_ushiftRight, BitVec.getLsbD_one]
    by_cases h0 : k = 0
    · subst h0
      cases word.getLsbD i <;> simp
    · cases word.getLsbD i <;> simp [h0]
  rw [hbit]
  split <;> rfl

theorem dumpBit_eq (word : Word) (i : Nat) :
    dumpBit word i = gap i ++ (fun b : Bool => if b then ['1'] else ['0']) (word.getLsbD i) := by
  rw [dumpBit, PRIu64_bit]

/-- What stands in front of a bit depends on its place only. -/
theorem exact_bit (i : Nat) :
    Exact fun b : Bool => gap i ++ (fun b : Bool => if b then ['1'] else ['0']) b := by
  refine Exact.lit _ (.of_length (fun a b => ?_) fun a b h => ?_)
  · cases a <;> cases b <;> rfl
  · cases a <;> cases b <;> first | rfl | cases h

/-- A word can be read back. -/
theorem exact_word (iWord : Nat) : Exact (dumpWord iWord) := by
  refine Exact.then_lit ?_ _
  refine Exact.lit _ fun v w s t h => ?_
  have hbits : ∀ word : Word, dumpBit word = fun i =>
      gap i ++ (fun b : Bool => if b then ['1'] else ['0']) (word.getLsbD i) :=
    fun word => funext (dumpBit_eq word)
  rw [hbits, hbits] at h
  obtain ⟨hall, hs⟩ := Exact.range exact_bit h
  exact ⟨BitVec.eq_of_getLsbD_eq hall, hs⟩

/-- The loop is defined as long as its words are in the block. Induction on the rounds. -/
theorem dumpWords_eq (buffBits : List Word) : ∀ capacity, dumpWords buffBits capacity =
    if capacity ≤ buffBits.length then
      some ((List.range capacity).flatMap fun i => dumpWord i (buffBits.getD i 0))
    else none := by
  intro capacity
  induction capacity with
  | zero => rfl
  | succ n ih =>
    rw [dumpWords, List.range_succ, List.foldlM_append]
    change (dumpWords buffBits n >>= _) = _
    rw [ih]
    by_cases hn : n + 1 ≤ buffBits.length
    · rw [if_pos hn, if_pos (Nat.le_of_succ_le hn)]
      have hword : buffBits[n]? = some (buffBits.getD n 0) := by
        rw [List.getElem?_eq_getElem hn, List.getD_eq_getElem _ _ hn]
      simp [hword, -List.getD_eq_getElem?_getD]
    · rw [if_neg hn]
      split
      · simp [show buffBits.length ≤ n by omega]
      · rfl

/-! ## The whole text -/

theorem close_bracket : "];\n".toList = [']'] ++ ";\n".toList := rfl

/-- A count in front of its bracket. -/
theorem count_cancel {v w : Word} {l s t : List Char}
    (h : PRIu64 v ++ ([']'] ++ (l ++ s)) = PRIu64 w ++ ([']'] ++ (l ++ t))) : v = w ∧ s = t := by
  have hexact : Exact fun w : Word => PRIu64 w ++ [']'] :=
    (exact_number (by decide)).comp fun _ _ h => BitVec.eq_of_toNat_eq h
  rw [← List.append_assoc, ← List.append_assoc (PRIu64 w)] at h
  obtain ⟨hvw, hs⟩ := hexact _ _ _ _ h
  exact ⟨hvw, List.append_cancel_left hs⟩

/-- Line by line: a fixed text, and then a count or the address up to its bracket. -/
theorem dumpHead_cancel {a b : MyBitArray} {p q s t : List Char} (hp : ']' ∉ p) (hq : ']' ∉ q)
    (h : dumpHead a p ++ s = dumpHead b q ++ t) : a.numOfBits = b.numOfBits ∧
      a.numOfWords = b.numOfWords ∧ a.capacity = b.capacity ∧ p = q ∧ s = t := by
  unfold dumpHead at h
  simp only [close_bracket, List.append_assoc] at h
  replace h := List.append_cancel_left (List.append_cancel_left (List.append_cancel_left
    (List.append_cancel_left (List.append_cancel_left h))))
  obtain ⟨hbits, h⟩ := count_cancel h
  obtain ⟨hwords, h⟩ := count_cancel (List.append_cancel_left h)
  obtain ⟨hcapacity, h⟩ := count_cancel (List.append_cancel_left h)
  obtain ⟨haddress, h⟩ := append_stop hp hq (List.append_cancel_left h)
  replace h := List.append_cancel_left (List.append_cancel_left (List.append_cancel_left
    (List.append_cancel_left h)))
  exact ⟨hbits, hwords, hcapacity, haddress, h⟩

/-- The dump in closed form. -/
theorem bitArrayDump_eq (a : MyBitArray) (address : List Char) :
    bitArrayDump true address (some a) = if a.capacity.toNat ≤ a.buffBits.length then
      some (EXIT_SUCCESS, some (dumpHead a address ++
        (List.range a.capacity.toNat).flatMap (fun i => dumpWord i (a.buffBits.getD i 0)) ++
          dumpTail))
    else none := by
  rw [bitArrayDump, if_neg (by decide), dumpWords_eq]
  split <;> rfl

/-- The words of the block up to the capacity. -/
theorem take_eq_iff {n : Nat} {l l' : List Word} (hl : n ≤ l.length) (hl' : n ≤ l'.length) :
    l.take n = l'.take n ↔ ∀ i < n, l.getD i 0 = l'.getD i 0 := by
  constructor
  · intro h i hi
    have hget := congrArg (·.getD i 0) h
    simpa [hi] using hget
  · intro h
    refine List.ext_getElem (by simp [hl, hl']) fun i hi hi' => ?_
    have hin : i < n := by
      rw [List.length_take] at hi
      omega
    simpa [show i < l.length by omega, show i < l'.length by omega] using h i hin

/-- The dump is undefined exactly when the capacity runs past the block, and otherwise two dumps are
equal exactly when the arrays are, up to what stands behind their capacity. -/
theorem dump_eq_iff (a b : MyBitArray) (p q : List Char) (hp : ']' ∉ p) (hq : ']' ∉ q) :
    ((bitArrayDump true p (some a)).isSome ↔ a.capacity.toNat ≤ a.buffBits.length) ∧
    ((bitArrayDump true p (some a)).isSome → (bitArrayDump true q (some b)).isSome →
      (bitArrayDump true p (some a) = bitArrayDump true q (some b) ↔
        a.numOfBits = b.numOfBits ∧ a.numOfWords = b.numOfWords ∧ a.capacity = b.capacity ∧
        p = q ∧ a.buffBits.take a.capacity.toNat = b.buffBits.take b.capacity.toNat)) := by
  have hiff : ∀ (c : MyBitArray) (r : List Char),
      (bitArrayDump true r (some c)).isSome ↔ c.capacity.toNat ≤ c.buffBits.length := by
    intro c r
    rw [bitArrayDump_eq]
    split <;> simp [*]
  refine ⟨hiff a p, fun ha hb => ?_⟩
  replace ha := (hiff a p).mp ha
  replace hb := (hiff b q).mp hb
  rw [bitArrayDump_eq, bitArrayDump_eq, if_pos ha, if_pos hb]
  constructor
  · intro h
    replace h := Option.some.inj (Prod.mk.inj (Option.some.inj h)).2
    simp only [List.append_assoc] at h
    obtain ⟨hbits, hwords, hcapacity, haddress, h⟩ := dumpHead_cancel hp hq h
    rw [← hcapacity] at h hb
    refine ⟨hbits, hwords, hcapacity, haddress, ?_⟩
    rw [← hcapacity, take_eq_iff ha hb]
    exact (Exact.range exact_word h).1
  · rintro ⟨hbits, hwords, hcapacity, rfl, htake⟩
    rw [← hcapacity] at htake hb
    have hget := (take_eq_iff ha hb).mp htake
    have hhead : dumpHead a p = dumpHead b p := by
      unfold dumpHead
      rw [hbits, hwords, hcapacity]
    have hbody : (List.range a.capacity.toNat).flatMap
        (fun i => dumpWord i (a.buffBits.getD i 0)) =
          (List.range b.capacity.toNat).flatMap (fun i => dumpWord i (b.buffBits.getD i 0)) := by
      rw [← hcapacity]
      refine List.flatMap_congr fun i hi => ?_
      rw [hget i (List.mem_range.mp hi)]
    rw [hhead, hbody]

/-- Two arrays of three bits in the same block, and a word behind the ones in use. -/
theorem dump_eq_iff_behind :
    bitArrayDump true ['0'] (some ⟨3, 1, 2, [5, 0]⟩) ≠
      bitArrayDump true ['0'] (some ⟨3, 1, 2, [5, 1]⟩) := by
  obtain ⟨hfirst, heq⟩ := dump_eq_iff ⟨3, 1, 2, [5, 0]⟩ ⟨3, 1, 2, [5, 1]⟩ ['0'] ['0']
    (by decide) (by decide)
  have hsecond := (dump_eq_iff ⟨3, 1, 2, [5, 1]⟩ ⟨3, 1, 2, [5, 0]⟩ ['0'] ['0']
    (by decide) (by decide)).1
  have hroom : (2 : Word).toNat ≤ 2 := by decide
  intro h
  have hwords := ((heq (hfirst.mpr hroom) (hsecond.mpr hroom)).mp h).2.2.2.2
  cases hwords

end CompTech.BitArray
