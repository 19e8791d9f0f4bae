import CompTech.BitArray.Runs
import CompTech.BitArray.Touched

/-!
# What a growth shows

`bit_array_resize` zeroes the words it adds and leaves the rest of the last used word as it is.
So a growth shows clear bits exactly if nothing was ever set at or beyond `num_of_bits`: `Tidy`.

Two masks break that. `1 << 31` is negative, so the single-bit calls reach from place 31 of a
word to its end; and `bit_mask_64` gives the *top* bits of a word where the region calls want the
bottom ones. Both reach place 63, and do no harm in a word that is used to its end; in the last
word of an array whose size is no multiple of 64 they set bits beyond the size. `Contained` are
the calls that do not, `tidy_iff` says they are the ones that leave a tidy array tidy, and
`growth_clear` draws the conclusion for every run.
-/

namespace CompTech.BitArray

open MyBitArray

/-! ## Runs of writing calls -/

/-- The array a call leaves, when `1 << k` has the value `shl k`. -/
def Call.applyWith (shl : Word → Option Word) (h : Heap) (a : MyBitArray) :
    Call → Option MyBitArray
  | .setBit index => bitArraySetBit shl h a index
  | .clearBit index => bitArrayClearBit shl h a index
  | .getBit index => (bitArrayGetBit shl h a index).map (·.2)
  | .toggleBit index => bitArrayToggleBit shl h a index
  | .setRegion start len => bitArraySetRegion a start len
  | .clearRegion start len => bitArrayClearRegion a start len
  | .toggleRegion start len => bitArrayToggleRegion a start len
  | .findSetBit _ | .findClearBit _ | .length => some a
  | .foreach func data => (bitArrayForeach shl h func a data).map (·.2.2)

/-- A call of the real code: the mask is that of the `int` literal. -/
def realStep (h : Heap) (a : MyBitArray) (c : Call) : Option MyBitArray := c.applyWith shlOne h a

/-- The writing calls, in range. -/
def WritesInRange (a : MyBitArray) : Call → Prop
  | .setBit index | .clearBit index | .toggleBit index => index < a.numOfBits
  | .setRegion start len | .clearRegion start len | .toggleRegion start len =>
      start.toNat + len.toNat ≤ a.numOfBits.toNat
  | _ => False

/-- Word `w` is used to its end. -/
def MyBitArray.FullWord (a : MyBitArray) (w : Nat) : Prop := 64 * (w + 1) ≤ a.numOfBits.toNat

/-- The call sets nothing at or beyond `num_of_bits`. -/
def Call.Contained (a : MyBitArray) : Call → Prop
  | .setBit index | .toggleBit index =>
      index.toNat % 64 < 31 ∨ index.toNat % 64 = 31 ∧ a.FullWord (index.toNat / 64)
  | .setRegion start len | .toggleRegion start len =>
      let last := (start.toNat + len.toNat - 1) / 64
      len = 0 ∨ a.FullWord last ∨ start.toNat / 64 = last ∧ len.toNat ≤ start.toNat % 64
  | _ => True

/-! ## Growing -/

/-- The sizes `bit_array_resize` computes do not wrap. -/
def SizesFit (a : MyBitArray) (n : Word) : Prop :=
  n.toNat + 63 < 2 ^ 64 ∧ (a.capacity < roundupBitsToWords n →
    (roundupWord64ToPow2 (roundupBitsToWords n)).toNat * 64 < 2 ^ 64)

/-- `b` is `a`, grown: the old words are kept and the new ones are zero. -/
structure Grown (a b : MyBitArray) : Prop extends b.WordsOk where
  room : a.capacity.toNat ≤ b.capacity.toNat
  old : ∀ j, j < 64 * a.capacity.toNat → b.bit j = a.bit j
  new : ∀ j, 64 * a.capacity.toNat ≤ j → j < 64 * b.capacity.toNat → b.bit j = false

/-- The bits of a buffer come word by word. -/
theorem bit_congr {a b : MyBitArray} {j : Nat} (h : b.buffBits[j / 64]? = a.buffBits[j / 64]?) :
    b.bit j = a.bit j := by
  rw [MyBitArray.bit, MyBitArray.bit, List.getD_eq_getElem?_getD, h, ← List.getD_eq_getElem?_getD]

theorem bitArrayResize_grown {h : Heap} {a : MyBitArray} {n : Word} (ha : a.WordsOk)
    (hs : h.succeeds = true) (hle : a.numOfBits.toNat ≤ n.toNat) (hfit : SizesFit a n) :
    ∃ b, bitArrayResize h a n = some (0, b) ∧ b.numOfBits = n ∧ Grown a b := by
  obtain ⟨hn, hbytes⟩ := hfit
  obtain ⟨b, hb, hg⟩ := bitArrayResize_enlarged ha hs hle hn hbytes
  refine ⟨b, hb, hg.bits, hg.toWordsOk, hg.room, fun j hj => ?_, fun j hlo hhi => ?_⟩
  · exact bit_congr (hg.old _ (by omega))
  · rw [MyBitArray.bit, List.getD_eq_getElem?_getD, hg.new _ (by omega) (by omega),
      Option.getD_some]
    exact BitVec.getLsbD_zero

/-! ## Tidy arrays -/

/-- Nothing is set at or beyond `num_of_bits`. -/
structure Tidy (a : MyBitArray) : Prop extends a.WordsOk where
  clear : ∀ j, a.numOfBits.toNat ≤ j → j < 64 * a.capacity.toNat → a.bit j = false

variable {a b : MyBitArray} {h : Heap}

theorem getLsbD_replicate_zero (n i k : Nat) :
    ((List.replicate n (0 : Word)).getD i 0).getLsbD k = false := by
  rw [List.getD_eq_getElem?_getD, List.getElem?_replicate]
  split <;> simp

theorem Tidy.init {n : Word} (hn : n.toNat + 63 < 2 ^ 64) (ha : bitArrayInit h n = some a) :
    Tidy a := by
  obtain ⟨-, -, -, hbuf⟩ := bitArrayInit_fields ha
  refine ⟨WordsOk.init hn ha, fun j _ _ => ?_⟩
  rw [MyBitArray.bit, hbuf]
  exact getLsbD_replicate_zero _ _ _

theorem Tidy.grown (ha : Tidy a) (hg : Grown a b) (hle : a.numOfBits.toNat ≤ b.numOfBits.toNat) :
    Tidy b := by
  refine ⟨hg.toWordsOk, fun j hlo hhi => ?_⟩
  by_cases hj : j < 64 * a.capacity.toNat
  · rw [hg.old j hj]
    exact ha.clear j (by omega) hj
  · exact hg.new j (by omega) hhi

/-- **One growth.** From a tidy array it keeps every bit and shows clear ones. -/
theorem Tidy.growth (ha : Tidy a) (hg : Grown a b) :
    (∀ j, j < a.numOfBits.toNat → b.bit j = a.bit j) ∧
      ∀ j, a.numOfBits.toNat ≤ j → j < b.numOfBits.toNat → b.bit j = false := by
  have hwords := ha.words
  have hfits := ha.fits
  have hwords' := hg.words
  have hfits' := hg.fits
  refine ⟨fun j hj => hg.old j (by omega), fun j hlo hhi => ?_⟩
  by_cases hj : j < 64 * a.capacity.toNat
  · rw [hg.old j hj]
    exact ha.clear j hlo hj
  · exact hg.new j (by omega) (by omega)

/-! ## Which calls leave it tidy -/

/-- A position at or beyond the size, in a word in use, is below the capacity and clear. -/
theorem Tidy.behind (ha : Tidy a) {i j : Nat} (hi : i < a.numOfBits.toNat)
    (hj : a.numOfBits.toNat ≤ j) (hword : j / 64 = i / 64) :
    j < 64 * a.capacity.toNat ∧ a.bit j = false := by
  have hwords := ha.words
  have hfits := ha.fits
  have hcap : j < 64 * a.capacity.toNat := by omega
  exact ⟨hcap, ha.clear j hj hcap⟩

/-- The word of `index`, combined with a mask: `f` is what the call does to one bit. -/
theorem tidy_set_iff {op : Word → Word → Word} {f : Bool → Bool → Bool} {i : Word} {m : Word}
    (ha : Tidy a) (hi : i < a.numOfBits)
    (hop : ∀ w m k, k < 64 → (op w m).getLsbD k = f (w.getLsbD k) (m.getLsbD k)) :
    Tidy { a with
      buffBits := a.buffBits.set (i.toNat / 64) (op (a.buffBits.getD (i.toNat / 64) 0) m) } ↔
      ∀ j, a.numOfBits.toNat ≤ j → j / 64 = i.toNat / 64 →
        f false (m.getLsbD (j % 64)) = false := by
  have hlt := ha.toWordsOk.word_lt hi
  have hvalue : ∀ j, a.numOfBits.toNat ≤ j → j / 64 = i.toNat / 64 →
      (op (a.buffBits.getD (i.toNat / 64) 0) m).getLsbD (j % 64) =
        f false (m.getLsbD (j % 64)) := by
    intro j hj hword
    have hclear := (ha.behind hi hj hword).2
    rw [MyBitArray.bit, hword] at hclear
    rw [hop _ _ _ (Nat.mod_lt _ (by omega)), hclear]
  constructor
  · intro hb j hj hword
    have hbit := hb.clear j hj (ha.behind hi hj hword).1
    rwa [bit_set hlt, if_pos hword, hvalue j hj hword] at hbit
  · intro hmask
    refine ⟨⟨ha.words, ha.fits, by simpa using ha.alloc⟩, fun j hj hcap => ?_⟩
    rw [bit_set hlt]
    split
    · rename_i hword
      rw [hvalue j hj hword]
      exact hmask j hj hword
    · exact ha.clear j hj hcap

/-- The three single-bit calls: `bit_array_clear_bit` sets nothing, whatever its mask. -/
theorem tidy_single_iff {op : Word → Word → Word} {f : Bool → Bool → Bool} {i : Word}
    (ha : Tidy a) (hi : i < a.numOfBits)
    (hop : ∀ w m k, k < 64 → (op w m).getLsbD k = f (w.getLsbD k) (m.getLsbD k))
    (hb : bitArrayUpdateBit op shlOne h a i = some b) (hff : f false false = false) :
    Tidy b ↔ f false true = false ∨ i.toNat % 64 < 31 ∨
      i.toNat % 64 = 31 ∧ a.FullWord (i.toNat / 64) := by
  have hmod : (i % WORD_SIZE).toNat = i.toNat % 64 := by simp
  rcases Nat.lt_or_ge (i.toNat % 64) 31 with hlow | hhigh
  · obtain ⟨m, hm, hbit⟩ := shlOne_of_lt (k := i % WORD_SIZE) (by rw [hmod]; exact hlow)
    rw [bitArrayUpdateBit_eq ha.toWordsOk hi hm, Option.some.injEq] at hb
    rw [← hb, tidy_set_iff ha hi hop]
    refine ⟨fun _ => .inr (.inl hlow), fun _ j hj hword => ?_⟩
    have hlt : i.toNat < a.numOfBits.toNat := hi
    have hne : j % 64 ≠ (i % WORD_SIZE).toNat := by
      rw [hmod]
      omega
    rw [hbit _ (Nat.mod_lt _ (by omega)), decide_eq_false hne, hff]
  · rcases Nat.eq_or_lt_of_le hhigh with hsign | hundef
    · obtain ⟨m, hm, hbits⟩ := shlOne_sign (k := i % WORD_SIZE) (by rw [hmod]; exact hsign.symm)
      rw [bitArrayUpdateBit_eq ha.toWordsOk hi hm, Option.some.injEq] at hb
      rw [← hb, tidy_set_iff ha hi hop]
      have hlt : i.toNat < a.numOfBits.toNat := hi
      constructor
      · intro hmask
        rw [or_iff_not_imp_right]
        intro hnot
        have hpart : ¬a.FullWord (i.toNat / 64) := fun hfull => hnot (.inr ⟨hsign.symm, hfull⟩)
        have hend := hmask (64 * (i.toNat / 64) + 63)
          (by unfold MyBitArray.FullWord at hpart; omega) (by omega)
        rwa [show (64 * (i.toNat / 64) + 63) % 64 = 63 by omega,
          hbits 63 (by omega) (by omega)] at hend
      · rintro (hf | hlow | ⟨-, hfull⟩) j hj hword
        · cases m.getLsbD (j % 64)
          · exact hff
          · exact hf
        · omega
        · unfold MyBitArray.FullWord at hfull
          omega
    · have hnone : shlOne (i % WORD_SIZE) = none := shlOne_of_ge (by rw [hmod]; omega)
      rw [bitArrayUpdateBit, if_neg (BitVec.not_le.mpr hi), hnone] at hb
      cases hb

/-! ### Regions -/

/-- A region reaches beyond the size exactly if its mask reaches place 63 of a word that is not
    used to its end. -/
theorem touched_beyond_iff {p n : Nat} (hn : 0 < n) (hle : p + n ≤ a.numOfBits.toNat) :
    (∀ j, a.numOfBits.toNat ≤ j → ¬Touched p n j) ↔
      a.FullWord ((p + n - 1) / 64) ∨ p / 64 = (p + n - 1) / 64 ∧ n ≤ p % 64 := by
  unfold MyBitArray.FullWord Touched
  dsimp only
  constructor
  · intro hnone
    have htop := hnone (64 * ((p + n - 1) / 64) + 63)
    by_cases hsame : p / 64 = (p + n - 1) / 64
    · rw [if_pos hsame] at htop
      omega
    · rw [if_neg hsame] at htop
      omega
  · rintro hcond j hj ⟨-, htouched⟩
    split at htouched <;> omega

/-- What a region call leaves beyond the size is what it makes of clear bits there. -/
theorem LaysOn.tidy_iff {op first : Word → Word → Word} {between : Word → Word}
    {f : Bool → Bool → Bool} {start len : Word} (hl : LaysOn op first between f) (ha : Tidy a)
    (hle : start.toNat + len.toNat ≤ a.numOfBits.toNat)
    (hb : bitArrayRegion op first between op a start len = some b) :
    Tidy b ↔ ∀ j, a.numOfBits.toNat ≤ j →
      f false (decide (Touched start.toNat len.toNat j)) = false := by
  obtain ⟨b', hb', hframe⟩ := bitArrayRegion_framed op first between op ha.toWordsOk hle
  obtain rfl : b = b' := Option.some.inj (hb.symm.trans hb')
  obtain ⟨b', hb', hbits⟩ := hl.region_bits ha.toWordsOk hle
  obtain rfl : b = b' := Option.some.inj (hb.symm.trans hb')
  have hwords := ha.words
  have hfits := ha.fits
  have halloc := ha.alloc
  constructor
  · intro htidy j hj
    by_cases hcap : j < 64 * a.capacity.toNat
    · rw [← ha.clear j hj hcap, ← hbits j, ha.clear j hj hcap]
      exact htidy.clear j (by rw [hframe.numOfBits]; exact hj) (by rw [hframe.capacity]; exact hcap)
    · -- the masks do not get that far
      have hnot : ¬Touched start.toNat len.toNat j := fun ht => by
        have hword := ht.lt
        have hpos := ht.1
        omega
      rw [decide_eq_false hnot, hl.keep]
  · intro hclear
    refine ⟨⟨?_, ?_, ?_⟩, fun j hj hcap => ?_⟩
    · rw [hframe.numOfWords, hframe.numOfBits]
      exact hwords
    · rw [hframe.numOfWords, hframe.capacity]
      exact hfits
    · rw [hframe.capacity, hframe.length]
      exact halloc
    · rw [hframe.numOfBits] at hj
      rw [hframe.capacity] at hcap
      rw [hbits j, ha.clear j hj hcap]
      exact hclear j hj

/-- `bit_array_set_region` and `bit_array_toggle_region`: where they meet a clear bit they leave
    the mask. -/
theorem LaysOn.tidy_iff_contained {op first : Word → Word → Word} {between : Word → Word}
    {f : Bool → Bool → Bool} {start len : Word} (hl : LaysOn op first between f) (ha : Tidy a)
    (hle : start.toNat + len.toNat ≤ a.numOfBits.toNat) (hf : ∀ x, f false x = x)
    (hb : bitArrayRegion op first between op a start len = some b) :
    Tidy b ↔ (Call.setRegion start len).Contained a := by
  rw [hl.tidy_iff ha hle hb]
  simp only [hf, decide_eq_false_iff_not]
  by_cases hlen : len = 0
  · refine iff_of_true (fun j _ ht => ?_) (.inl hlen)
    rw [hlen] at ht
    exact Nat.lt_irrefl _ ht.1
  · rw [touched_beyond_iff (toNat_pos_of_ne_zero hlen) hle]
    exact (or_iff_right hlen).symm

/-- **One call.** A call in range that is defined leaves a tidy array tidy exactly if it is
    contained. -/
theorem tidy_iff {c : Call} (ha : Tidy a) (hc : WritesInRange a c)
    (hb : realStep h a c = some b) : Tidy b ↔ c.Contained a := by
  cases c with
  | setBit index =>
    rw [tidy_single_iff (f := or) ha hc (fun w m k _ => BitVec.getLsbD_or) hb rfl]
    exact or_iff_right (by simp)
  | clearBit index =>
    rw [tidy_single_iff (f := fun x y => x && !y) ha hc (fun w m k hk => by simp [hk]) hb rfl]
    exact iff_of_true (.inl rfl) trivial
  | toggleBit index =>
    rw [tidy_single_iff (f := xor) ha hc (fun w m k _ => BitVec.getLsbD_xor) hb rfl]
    exact or_iff_right (by simp)
  | setRegion start len =>
    exact setRegion_laysOn.tidy_iff_contained ha hc Bool.false_or hb
  | clearRegion start len =>
    exact iff_of_true ((clearRegion_laysOn.tidy_iff ha hc hb).mpr fun _ _ => Bool.false_and _)
      trivial
  | toggleRegion start len =>
    exact toggleRegion_laysOn.tidy_iff_contained ha hc Bool.false_xor hb
  | getBit | findSetBit | findClearBit | foreach | length => exact hc.elim

/-! ## Whole runs -/

theorem Tidy.run {cs : List Call} (ha : Tidy a)
    (hr : Lib.Run (realStep h) (fun a c => WritesInRange a c ∧ c.Contained a) a cs b) :
    Tidy b :=
  hr.invariant ha fun _ _ _ ht hok hst => (tidy_iff ht hok.1 hst).mpr hok.2

/-- The index of a single-bit call. -/
def Call.index : Call → Option Word
  | .setBit index | .clearBit index | .getBit index | .toggleBit index => some index
  | _ => none

/-- Out of range, the four single-bit calls are `bit_array_resize`. -/
theorem applyWith_of_le {shl : Word → Option Word} {c : Call} {index : Word}
    (hc : c.index = some index) (hge : a.numOfBits ≤ index) :
    c.applyWith shl h a = (bitArrayResize h a index).map (·.2) := by
  cases c with
  | setBit i | clearBit i | toggleBit i =>
    cases hc
    exact if_pos hge
  | getBit i =>
    cases hc
    show (bitArrayGetBit shl h a index).map (·.2) = _
    rw [bitArrayGetBit, if_pos hge, Option.map_map]
    rfl
  | setRegion | clearRegion | toggleRegion | findSetBit | findClearBit | foreach | length =>
    cases hc

/-- `b` is `a` with `num_of_bits` grown: the old positions keep their bits and the new ones are
    clear. -/
structure GrewClear (a b : MyBitArray) : Prop where
  kept : ∀ j, j < a.numOfBits.toNat → b.bit j = a.bit j
  clear : ∀ j, a.numOfBits.toNat ≤ j → j < b.numOfBits.toNat → b.bit j = false

/-- **Growth shows only clear bits**, after every run of contained calls on a constructed array. The
    bits behind `num_of_bits` are clear in a fresh array, a call that is contained sets none of
    them, and what a growth adds to the block is cleared. -/
theorem growth_clear {n : Word} (hn : n.toNat + 63 < 2 ^ 64) {a₀ : MyBitArray}
    (h₀ : bitArrayConstruct true h n = some a₀) {cs : List Call}
    (hr : Lib.Run (realStep h) (fun a c => WritesInRange a c ∧ c.Contained a) a₀ cs a)
    {c : Call} {index : Word} (hc : c.index = some index) (hgrows : a.numOfBits < index)
    {h' : Heap} (hs : h'.succeeds = true) (hfit : SizesFit a index) :
    ∃ b, realStep h' a c = some b ∧ b.numOfBits = index ∧ GrewClear a b := by
  have ha : Tidy a := (Tidy.init hn h₀).run hr
  have hlt : a.numOfBits.toNat < index.toNat := hgrows
  obtain ⟨b, hb, hbits, hg⟩ := bitArrayResize_grown ha.toWordsOk hs (Nat.le_of_lt hlt) hfit
  refine ⟨b, ?_, hbits, (ha.growth hg).1, (ha.growth hg).2⟩
  rw [realStep, applyWith_of_le hc (BitVec.le_of_lt hgrows), hb]
  rfl

/-- 100 bits: position 30 is set and the first word toggled to its end, then the array grows. -/
theorem growth_clear_hundred : ∃ b, realStep quietHeap
    ⟨100, 2, 2, [0xFFFFFFFFBFFFFFFF, 0]⟩ (.setBit 200) = some b ∧ b.numOfBits = 200 ∧
      GrewClear ⟨100, 2, 2, [0xFFFFFFFFBFFFFFFF, 0]⟩ b := by
  have hset : realStep quietHeap ⟨100, 2, 2, [0, 0]⟩ (.setBit 30) =
      some ⟨100, 2, 2, [0x40000000, 0]⟩ := by decide
  have htoggle : realStep quietHeap ⟨100, 2, 2, [0x40000000, 0]⟩ (.toggleRegion 0 64) =
      some ⟨100, 2, 2, [0xFFFFFFFFBFFFFFFF, 0]⟩ := by decide
  have hsizes : SizesFit ⟨100, 2, 2, [0xFFFFFFFFBFFFFFFF, 0]⟩ 200 :=
    ⟨by decide, fun _ => by decide⟩
  refine growth_clear (n := 100) (h := quietHeap) (by decide)
    (show bitArrayConstruct true quietHeap 100 = some ⟨100, 2, 2, [0, 0]⟩ by decide)
    (.snoc (.snoc .nil ⟨?_, ?_⟩ hset) ⟨?_, ?_⟩ htoggle) rfl (by decide) rfl hsizes
  · show (30 : Word) < 100
    decide
  · exact .inl (show (30#64).toNat % 64 < 31 by decide)
  · show (0#64).toNat + (64#64).toNat ≤ (100#64).toNat
    decide
  · exact .inr (.inl (show 64 * ((0 + (64#64).toNat - 1) / 64 + 1) ≤ (100#64).toNat by decide))

/-- `bit_array_set_region (ba, 0, 5)` on an array of 10 bits sets positions 59 to 63, and a growth
    to 64 bits shows them. The mask of a short region starts at the top of its word, wherever the
    array ends. -/
theorem region_spills : ¬ ∀ (n : Word), n.toNat + 63 < 2 ^ 64 → ∀ (h : Heap) (a₀ : MyBitArray),
    bitArrayConstruct true h n = some a₀ → ∀ (cs : List Call) (a : MyBitArray),
      Lib.Run (realStep h) WritesInRange a₀ cs a → ∀ (c : Call) (index : Word),
        c.index = some index → a.numOfBits < index → ∀ h' : Heap, h'.succeeds = true →
          SizesFit a index → ∃ b, realStep h' a c = some b ∧ b.numOfBits = index ∧
            GrewClear a b := by
  intro hall
  have hregion : realStep quietHeap ⟨10, 1, 2, [0, 0]⟩ (.setRegion 0 5) =
      some ⟨10, 1, 2, [0xF800000000000000, 0]⟩ := by decide
  have hin : WritesInRange ⟨10, 1, 2, [0, 0]⟩ (.setRegion 0 5) := by
    show (0#64).toNat + (5#64).toNat ≤ (10#64).toNat
    decide
  have hgrow : realStep quietHeap ⟨10, 1, 2, [0xF800000000000000, 0]⟩ (.setBit 64) =
      some ⟨64, 1, 2, [0xF800000000000000, 0]⟩ := by decide
  have hsizes : SizesFit ⟨10, 1, 2, [0xF800000000000000, 0]⟩ 64 :=
    ⟨by decide, fun _ => by decide⟩
  obtain ⟨b, hb, -, hclear⟩ := hall 10 (by decide) quietHeap ⟨10, 1, 2, [0, 0]⟩ (by decide) _ _
    (.snoc .nil hin hregion) (.setBit 64) 64 rfl (by decide) quietHeap rfl hsizes
  rw [hgrow, Option.some.injEq] at hb
  have hbit := hclear.clear 59 (by decide) (by rw [← hb]; decide)
  rw [← hb] at hbit
  exact absurd hbit (by decide)

end CompTech.BitArray
