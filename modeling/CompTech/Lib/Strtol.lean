import Mathlib

/-!
# strtol in base ten

`strtol mem` is `strtol (nptr, &endptr, 10)` on the memory `mem` that `nptr` points to, with a
64-bit `long`. It reads on until a character that no longer belongs to the number; memory that ends
before such a character has been left, which is undefined and answers `none`. A `CString` in memory
is its characters with `NUL` behind them, and is never left.

`Denotes s v` says what a string means without saying how it is scanned: white space, perhaps a
sign, and digits. The two ways round are `strtol_of_denotes` and `denotes_of_strtol`.
-/

namespace Lib

/-- `isspace` in the C locale. -/
def isSpace (c : Char) : Bool := c == ' ' || ('\t' ≤ c && c ≤ '\r')

/-- The character behind a string. -/
def NUL : Char := Char.ofNat 0

/-- What a `char*` argument points to. -/
structure CString where
  chars : List Char
  noNul : NUL ∉ chars

/-- The string as it is in memory. -/
def CString.mem (s : CString) : List Char := s.chars ++ [NUL]

/-- The bounds of a `long`. -/
def LONG_MAX : Int := 2 ^ 63 - 1
def LONG_MIN : Int := -2 ^ 63

/-- What a scan leaves. -/
structure Scan where
  value : Int
  /-- from the first character on that does not belong to the number -/
  endptr : List Char
  /-- whether `errno` is set -/
  erange : Bool
  deriving DecidableEq, Repr

/-- The sign, if there is one, and what is behind it. -/
def splitSign : List Char → List Char × List Char
  | '-' :: s => (['-'], s)
  | '+' :: s => (['+'], s)
  | s => ([], s)

/-- The value of the digits `n` behind `sign`. -/
def signed (sign : List Char) (n : Nat) : Int := if sign = ['-'] then -n else n

/-- A number that does not fit a `long` gives the bound it is beyond, and `ERANGE`. -/
def Scan.ofInt (v : Int) (endptr : List Char) : Scan :=
  ⟨max LONG_MIN (min LONG_MAX v), endptr, decide (v < LONG_MIN ∨ LONG_MAX < v)⟩

theorem Scan.value_ofInt {v : Int} {t : List Char} (h : LONG_MIN ≤ v) (h' : v ≤ LONG_MAX) :
    (Scan.ofInt v t).value = v := by
  rw [ofInt, min_eq_right h', max_eq_right h]

theorem Scan.erange_ofInt {v : Int} {t : List Char} :
    (Scan.ofInt v t).erange = false ↔ LONG_MIN ≤ v ∧ v ≤ LONG_MAX := by
  simp [ofInt]

/-- The scan: white space, a sign, digits. Without a digit the value is 0 and `endptr` is the
    beginning of the string, white space included. -/
def strtol (nptr : List Char) : Option Scan :=
  let (sign, s) := splitSign (nptr.dropWhile isSpace)
  let digits := s.takeWhile Char.isDigit
  let endptr := s.dropWhile Char.isDigit
  if endptr = [] then none
  else if digits = [] then some ⟨0, nptr, false⟩
  else some (.ofInt (signed sign (Nat.ofDigitChars 10 digits 0)) endptr)

/-- The string `s` means the number `v`. -/
inductive Denotes : List Char → Int → Prop
  | intro {ws sign ds : List Char} (hws : ∀ c ∈ ws, isSpace c = true)
      (hsign : sign ∈ [[], ['+'], ['-']]) (hne : ds ≠ []) (hds : ∀ c ∈ ds, c.isDigit = true) :
      Denotes (ws ++ (sign ++ ds)) (signed sign (Nat.ofDigitChars 10 ds 0))

/-! ## Runs of characters -/

theorem takeWhile_run {p : Char → Bool} {l : List Char} {c : Char} {t : List Char}
    (hl : ∀ d ∈ l, p d = true) (hc : p c = false) : (l ++ c :: t).takeWhile p = l := by
  rw [List.takeWhile_append_of_pos hl, List.takeWhile_cons_of_neg (by simp [hc]), List.append_nil]

theorem dropWhile_run {p : Char → Bool} {l : List Char} {c : Char} {t : List Char}
    (hl : ∀ d ∈ l, p d = true) (hc : p c = false) : (l ++ c :: t).dropWhile p = c :: t := by
  rw [List.dropWhile_append_of_pos hl, List.dropWhile_cons_of_neg (by simp [hc])]

theorem not_isSpace_of_isDigit {c : Char} (h : c.isDigit = true) : isSpace c = false := by
  obtain ⟨hlo, -⟩ := Char.isDigit_iff_toNat.mp h
  have hlo' : 48 ≤ c.toNat := hlo
  have hne : c ≠ ' ' := by rintro rfl; exact absurd hlo (by decide)
  have hgt : ¬ c ≤ '\r' := by
    intro hle
    have hle' : c.toNat ≤ 13 := hle
    omega
  simp [isSpace, hne, hgt]

/-- A sign that is there is taken off, and so is none in front of a digit. -/
theorem splitSign_append {sign t : List Char} {d : Char} (hsign : sign ∈ [[], ['+'], ['-']])
    (hd : d.isDigit = true) : splitSign (sign ++ d :: t) = (sign, d :: t) := by
  have hm : d ≠ '-' := by rintro rfl; exact absurd hd (by decide)
  have hp : d ≠ '+' := by rintro rfl; exact absurd hd (by decide)
  simp only [List.mem_cons, List.not_mem_nil, or_false] at hsign
  rcases hsign with rfl | rfl | rfl
  · simp [splitSign, hm, hp]
  · rfl
  · rfl

theorem splitSign_join (s : List Char) :
    (splitSign s).1 ∈ [[], ['+'], ['-']] ∧ (splitSign s).1 ++ (splitSign s).2 = s := by
  unfold splitSign
  split
  · simp
  · simp
  · simp

/-- White space ends in front of a sign or a digit. -/
theorem dropWhile_space {ws sign t : List Char} {d : Char} (hws : ∀ c ∈ ws, isSpace c = true)
    (hsign : sign ∈ [[], ['+'], ['-']]) (hd : d.isDigit = true) :
    (ws ++ (sign ++ d :: t)).dropWhile isSpace = sign ++ d :: t := by
  simp only [List.mem_cons, List.not_mem_nil, or_false] at hsign
  rcases hsign with rfl | rfl | rfl
  · exact dropWhile_run hws (not_isSpace_of_isDigit hd)
  · exact dropWhile_run hws (by decide)
  · exact dropWhile_run hws (by decide)

/-! ## What strtol reads -/

/-- White space, a sign and digits, up to a character that is none. -/
theorem strtol_numeral {ws sign ds t : List Char} {c : Char} (hws : ∀ c ∈ ws, isSpace c = true)
    (hsign : sign ∈ [[], ['+'], ['-']]) (hne : ds ≠ []) (hds : ∀ c ∈ ds, c.isDigit = true)
    (hc : c.isDigit = false) :
    strtol (ws ++ (sign ++ (ds ++ c :: t))) =
      some (.ofInt (signed sign (Nat.ofDigitChars 10 ds 0)) (c :: t)) := by
  obtain ⟨d, ds', rfl⟩ := List.exists_cons_of_ne_nil hne
  have hd : d.isDigit = true := hds d (by simp)
  have hdrop : (ws ++ (sign ++ ((d :: ds') ++ c :: t))).dropWhile isSpace =
      sign ++ ((d :: ds') ++ c :: t) := dropWhile_space hws hsign hd
  have hsplit : splitSign (sign ++ ((d :: ds') ++ c :: t)) = (sign, (d :: ds') ++ c :: t) :=
    splitSign_append hsign hd
  simp only [strtol, hdrop, hsplit, takeWhile_run hds hc, dropWhile_run hds hc,
    List.cons_ne_nil, if_false]

theorem strtol_of_denotes {s t : List Char} {v : Int} {c : Char} (h : Denotes s v)
    (hc : c.isDigit = false) : strtol (s ++ c :: t) = some (.ofInt v (c :: t)) := by
  obtain ⟨hws, hsign, hne, hds⟩ := h
  rw [List.append_assoc, List.append_assoc]
  exact strtol_numeral hws hsign hne hds hc

/-- What `%d` prints means what was printed. -/
theorem denotes_toDigits (n : Nat) : Denotes (Nat.toDigits 10 n) n := by
  have h : Denotes ([] ++ ([] ++ Nat.toDigits 10 n)) _ :=
    .intro (fun _ hc => absurd hc List.not_mem_nil) (List.mem_cons_self ..) Nat.toDigits_ne_nil
      (fun _ => Nat.isDigit_of_mem_toDigits (by decide) (by decide))
  simpa [signed] using h

/-- Digits without a sign. -/
theorem strtol_digits {ws ds t : List Char} {c : Char} (hws : ∀ c ∈ ws, isSpace c = true)
    (hne : ds ≠ []) (hds : ∀ c ∈ ds, c.isDigit = true) (hc : c.isDigit = false) :
    strtol (ws ++ (ds ++ c :: t)) = some (.ofInt (Nat.ofDigitChars 10 ds 0 : Nat) (c :: t)) := by
  have h : strtol (ws ++ ([] ++ (ds ++ c :: t))) = some (.ofInt _ (c :: t)) :=
    strtol_numeral hws (List.mem_cons_self ..) hne hds hc
  simpa [signed] using h

/-- Digits up to the end of the memory. -/
theorem strtol_unterminated {ws ds : List Char} (hws : ∀ c ∈ ws, isSpace c = true)
    (hds : ∀ c ∈ ds, c.isDigit = true) : strtol (ws ++ ds) = none := by
  have hspace : (ws ++ ds).dropWhile isSpace = ds := by
    cases ds with
    | nil => simpa using hws
    | cons d ds => exact dropWhile_run hws (not_isSpace_of_isDigit (hds d (List.mem_cons_self ..)))
  have hsign : splitSign ds = ([], ds) := by
    cases ds with
    | nil => rfl
    | cons d ds => exact @splitSign_append [] ds d (by simp) (hds d (List.mem_cons_self ..))
  have hend : ds.dropWhile Char.isDigit = [] := List.dropWhile_eq_nil_iff.mpr hds
  simp [strtol, hspace, hsign, hend]

/-- `n` digits make a number below 10ⁿ. -/
theorem ofDigitChars_lt {ds : List Char} (hds : ∀ c ∈ ds, c.isDigit = true) :
    Nat.ofDigitChars 10 ds 0 < 10 ^ ds.length := by
  induction ds using List.reverseRecOn with
  | nil => simp
  | append_singleton ds c ih =>
    have hold := ih fun d hd => hds d (List.mem_append_left _ hd)
    obtain ⟨-, hhi⟩ := Char.isDigit_iff_toNat.mp (hds c (by simp))
    have hhi' : c.toNat ≤ 57 := hhi
    rw [Nat.ofDigitChars_append, Nat.ofDigitChars_cons, Nat.ofDigitChars_nil,
      List.length_append, List.length_singleton, Nat.pow_succ]
    have hzero : '0'.toNat = 48 := rfl
    omega

theorem length_splitSign_le (s : List Char) : (splitSign s).2.length ≤ s.length := by
  have h := congrArg List.length (splitSign_join s).2
  rw [List.length_append] at h
  omega

theorem natAbs_signed (sign : List Char) (n : Nat) : (signed sign n).natAbs = n := by
  unfold signed
  split <;> simp

/-- The bounds of a `long` are on either side of zero. -/
theorem natAbs_value_ofInt_le (v : Int) (t : List Char) :
    (Scan.ofInt v t).value.natAbs ≤ v.natAbs := by
  simp only [Scan.ofInt, LONG_MIN, LONG_MAX]
  omega

/-- A scan has no more digits than there are characters. -/
theorem value_lt_of_strtol {s : List Char} {r : Scan} (h : strtol s = some r) :
    r.value.natAbs < 10 ^ s.length := by
  simp only [strtol] at h
  split at h
  · exact absurd h (by simp)
  split at h
  · obtain rfl := Option.some.inj h
    exact Nat.pow_pos (by decide)
  · obtain rfl := Option.some.inj h
    generalize hq : splitSign (s.dropWhile isSpace) = q
    have hlen : (q.2.takeWhile Char.isDigit).length ≤ s.length := by
      have h₁ := (List.takeWhile_sublist Char.isDigit (l := q.2)).length_le
      have h₂ := length_splitSign_le (s.dropWhile isSpace)
      have h₃ := (List.dropWhile_sublist isSpace (l := s)).length_le
      rw [hq] at h₂
      omega
    have hdigits : Nat.ofDigitChars 10 (q.2.takeWhile Char.isDigit) 0 < 10 ^ s.length :=
      Nat.lt_of_lt_of_le (ofDigitChars_lt fun c hc => List.mem_takeWhile_imp hc)
        (Nat.pow_le_pow_right (by omega) hlen)
    refine Nat.lt_of_le_of_lt (natAbs_value_ofInt_le _ _) ?_
    rw [natAbs_signed]
    exact hdigits

/-- White space and then something that is no number. -/
theorem strtol_nothing {ws t : List Char} {c : Char} (hws : ∀ c ∈ ws, isSpace c = true)
    (hspace : isSpace c = false) (hsign : c ≠ '-' ∧ c ≠ '+') (hdigit : c.isDigit = false) :
    strtol (ws ++ c :: t) = some ⟨0, ws ++ c :: t, false⟩ := by
  have hsplit : splitSign (c :: t) = ([], c :: t) := by simp [splitSign, hsign.1, hsign.2]
  simp [strtol, dropWhile_run hws hspace, hsplit, hdigit]

/-- No number stands at the start of `l`, whatever comes behind `l`. -/
def Mute (l : List Char) : Prop :=
  ∃ c ∈ (l.dropWhile isSpace).head?, (c ≠ '-' ∧ c ≠ '+') ∧ c.isDigit = false

instance (l : List Char) : Decidable (Mute l) :=
  decidable_of_iff ((l.dropWhile isSpace).head?.any
    fun c => decide ((c ≠ '-' ∧ c ≠ '+') ∧ c.isDigit = false)) (by simp [Mute, Option.any_eq_true])

theorem mute_iff {l : List Char} : Mute l ↔ ∃ ws c t, l = ws ++ c :: t ∧
    (∀ d ∈ ws, isSpace d = true) ∧ isSpace c = false ∧ (c ≠ '-' ∧ c ≠ '+') ∧ c.isDigit = false := by
  constructor
  · rintro ⟨c, hc, hsign, hdigit⟩
    obtain ⟨t, ht⟩ := List.head?_eq_some_iff.mp hc
    refine ⟨l.takeWhile isSpace, c, t, ?_, fun d hd => List.mem_takeWhile_imp hd, ?_, hsign, hdigit⟩
    · rw [← ht, List.takeWhile_append_dropWhile]
    · have := List.head?_dropWhile_not isSpace l
      simpa [ht] using this
  · rintro ⟨ws, c, t, rfl, hws, hspace, hsign, hdigit⟩
    exact ⟨c, by rw [dropWhile_run hws hspace]; rfl, hsign, hdigit⟩

theorem Mute.mono {l m : List Char} (h : Mute l) (hle : l <+: m) : Mute m := by
  obtain ⟨u, rfl⟩ := hle
  obtain ⟨ws, c, t, rfl, hws, hspace, hsign, hdigit⟩ := mute_iff.mp h
  exact mute_iff.mpr ⟨ws, c, t ++ u, by simp, hws, hspace, hsign, hdigit⟩

theorem Mute.cons_space {l : List Char} {c : Char} (h : Mute l) (hc : isSpace c = true) :
    Mute (c :: l) := by
  obtain ⟨d, hd, hrest⟩ := h
  exact ⟨d, by rwa [List.dropWhile_cons_of_pos hc], hrest⟩

theorem strtol_mute {l : List Char} (h : Mute l) : strtol l = some ⟨0, l, false⟩ := by
  obtain ⟨ws, c, t, rfl, hws, hspace, hsign, hdigit⟩ := mute_iff.mp h
  exact strtol_nothing hws hspace hsign hdigit

/-! ## C strings -/

theorem takeWhile_snoc {p : Char → Bool} {c : Char} (hc : p c = false) (l : List Char) :
    (l ++ [c]).takeWhile p = l.takeWhile p := by
  induction l with
  | nil => simp [hc]
  | cons d l ih =>
    by_cases hd : p d = true
    · simp [hd, ih]
    · simp [hd]

theorem dropWhile_snoc {p : Char → Bool} {c : Char} (hc : p c = false) (l : List Char) :
    (l ++ [c]).dropWhile p = l.dropWhile p ++ [c] := by
  induction l with
  | nil => simp [hc]
  | cons d l ih =>
    by_cases hd : p d = true
    · simp [hd, ih]
    · simp [hd]

theorem splitSign_snoc (s : List Char) :
    splitSign (s ++ [NUL]) = ((splitSign s).1, (splitSign s).2 ++ [NUL]) := by
  cases s with
  | nil => rfl
  | cons d s =>
    by_cases hm : d = '-'
    · subst hm; rfl
    by_cases hp : d = '+'
    · subst hp; rfl
    simp [splitSign, hm, hp]

theorem strtol_string (s : CString) :
    strtol s.mem = some
      (let (sign, t) := splitSign (s.chars.dropWhile isSpace)
      if t.takeWhile Char.isDigit = [] then ⟨0, s.mem, false⟩
      else .ofInt (signed sign (Nat.ofDigitChars 10 (t.takeWhile Char.isDigit) 0))
        (t.dropWhile Char.isDigit ++ [NUL])) := by
  have hspace : isSpace NUL = false := by decide
  have hdigit : NUL.isDigit = false := by decide
  simp only [CString.mem, strtol, dropWhile_snoc hspace, splitSign_snoc, takeWhile_snoc hdigit,
    dropWhile_snoc hdigit, List.append_eq_nil_iff, List.cons_ne_nil, and_false, if_false]
  split <;> rfl

theorem dropWhile_subset {p : Char → Bool} {l : List Char} {c : Char} (h : c ∈ l.dropWhile p) :
    c ∈ l := (List.dropWhile_sublist p).subset h

/-- The rest of a string that the scan leaves. -/
theorem eq_nil_of_head {s : CString} {t : List Char} (hmem : ∀ c ∈ t, c ∈ s.chars)
    (hend : (t ++ [NUL]).head? = some NUL) : t = [] := by
  cases t with
  | nil => rfl
  | cons d u =>
    obtain rfl : d = NUL := by simpa using hend
    exact absurd (hmem _ (List.mem_cons_self ..)) s.noNul

/-- A scan that gets to the end of a string has read a number, or the string is empty. -/
theorem denotes_of_strtol {s : CString} {r : Scan} (h : strtol s.mem = some r)
    (hend : r.endptr.head? = some NUL) :
    (s.chars = [] ∧ r.value = 0) ∨ ∃ v, Denotes s.chars v ∧ r = .ofInt v [NUL] := by
  rw [strtol_string, Option.some.injEq] at h
  obtain ⟨hsign, hjoin⟩ := splitSign_join (s.chars.dropWhile isSpace)
  generalize splitSign (s.chars.dropWhile isSpace) = q at h hsign hjoin
  obtain ⟨sign, t⟩ := q
  simp only at h hsign hjoin
  by_cases hnone : t.takeWhile Char.isDigit = []
  · -- nothing converted: `endptr` is the string itself
    rw [if_pos hnone] at h
    subst h
    exact .inl ⟨eq_nil_of_head (fun _ hc => hc) hend, rfl⟩
  · rw [if_neg hnone] at h
    subst h
    have hmem : ∀ c ∈ t.dropWhile Char.isDigit, c ∈ s.chars := fun c hc =>
      dropWhile_subset (hjoin ▸ List.mem_append_right sign (dropWhile_subset hc))
    have hrest : t.dropWhile Char.isDigit = [] := eq_nil_of_head hmem hend
    have hdigits : t.takeWhile Char.isDigit = t := by
      simpa [hrest] using List.takeWhile_append_dropWhile (p := Char.isDigit) (l := t)
    have hall : s.chars.takeWhile isSpace ++ (sign ++ t) = s.chars := by
      rw [hjoin, List.takeWhile_append_dropWhile]
    rw [hdigits] at hnone ⊢
    have hnum : Denotes (s.chars.takeWhile isSpace ++ (sign ++ t)) _ :=
      .intro (fun c hc => List.mem_takeWhile_imp hc) hsign hnone
        (fun c hc => List.mem_takeWhile_imp (hdigits.symm ▸ hc))
    rw [hall] at hnum
    exact .inr ⟨_, hnum, by rw [hrest]; rfl⟩

end Lib
