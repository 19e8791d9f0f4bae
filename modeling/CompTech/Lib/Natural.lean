import CompTech.Lib.Strtol

/-!
# A natural number from the command line

The usual way to read a count: `strtol`, and then three tests one after another — of `errno`, of
the character at which the scan has stopped, and of the number itself. What differs from one program
to the next is what it does where a test fails, so that is a parameter (`Refusals`), and so is
`errno` before the call, since not every program clears it.

A string that denotes a number from 1 to the largest `long` is read as that number
(`strtolNatural_of_denotes`), and any other is refused (`strtolNatural_cases`).
-/

namespace Lib

/-- The value of `errno` for a number out of range. -/
def ERANGE : Int := 34

/-- What is returned for each of the three tests. -/
structure Refusals (ε : Type) where
  -- `errno` is set
  failed : ε
  -- there is something behind the digits
  trailing : ε
  -- the number is below 1
  unnatural : ε

variable {ε : Type} {refusals : Refusals ε}

/-- The tests in their order, on what a scan has left: `errno`, whether all of the argument was
    taken, and the number. -/
def natural (refusals : Refusals ε) (errno : Int) (whole : Bool) (digit : Int) : Except ε Int :=
  if errno ≠ 0 then .error refusals.failed
  else if whole = false then .error refusals.trailing
  else if digit < 1 then .error refusals.unnatural
  else .ok digit

/-- `strtol` and the tests; `errno` is what it was before, and is only written where the number does
    not fit. -/
def strtolNatural (refusals : Refusals ε) (errno : Int) (arg : CString) :
    Option (Except ε Int) :=
  (strtol arg.mem).map fun r =>
    natural refusals (if r.erange then ERANGE else errno) (r.endptr.head? = some NUL) r.value

theorem natural_of_pos {digit : Int} (h : 1 ≤ digit) :
    natural refusals 0 true digit = .ok digit := by
  rw [natural, if_neg (by decide), if_neg (by decide), if_neg (by omega)]

/-- A number passes all three tests, or there is one that it fails. -/
theorem natural_cases (refusals : Refusals ε) (errno : Int) (whole : Bool) (digit : Int) :
    (∃ e, natural refusals errno whole digit = .error e) ∨
      errno = 0 ∧ whole = true ∧ 1 ≤ digit := by
  by_cases herrno : errno = 0
  · cases whole with
    | false => exact .inl ⟨_, by rw [natural, if_neg (by simp [herrno]), if_pos rfl]⟩
    | true =>
      by_cases hpos : digit < 1
      · exact .inl ⟨_, by rw [natural, if_neg (by simp [herrno]), if_neg (by decide), if_pos hpos]⟩
      · exact .inr ⟨herrno, rfl, by omega⟩
  · exact .inl ⟨_, by rw [natural, if_pos herrno]⟩

/-- What is typed is read, if it fits a `long`. -/
theorem strtolNatural_of_denotes {arg : CString} {v : Int} (h : Denotes arg.chars v) (hv : 1 ≤ v)
    (hmax : v ≤ LONG_MAX) : strtolNatural refusals 0 arg = some (.ok v) := by
  have hscan : strtol arg.mem = some (.ofInt v [NUL]) := strtol_of_denotes h (by decide)
  have hmin : LONG_MIN ≤ v := by unfold LONG_MIN; omega
  have hvalue : (Scan.ofInt v [NUL]).value = v := Scan.value_ofInt hmin hmax
  have hrange : (Scan.ofInt v [NUL]).erange = false := Scan.erange_ofInt.mpr ⟨hmin, hmax⟩
  have hend : (Scan.ofInt v [NUL]).endptr.head? = some NUL := rfl
  rw [strtolNatural, hscan, Option.map_some, hvalue, hrange, hend]
  exact congrArg some (natural_of_pos hv)

/-- Nothing else is. -/
theorem strtolNatural_cases (refusals : Refusals ε) (arg : CString) :
    (∃ e, strtolNatural refusals 0 arg = some (.error e)) ∨
      ∃ v, Denotes arg.chars v ∧ 1 ≤ v ∧ v ≤ LONG_MAX := by
  obtain ⟨r, hr⟩ : ∃ r, strtol arg.mem = some r := ⟨_, strtol_string arg⟩
  rw [strtolNatural, hr, Option.map_some]
  rcases natural_cases refusals (if r.erange then ERANGE else 0) (r.endptr.head? = some NUL)
    r.value with ⟨e, he⟩ | ⟨herrno, hwhole, hpos⟩
  · exact .inl ⟨e, congrArg some he⟩
  · have hrange : r.erange = false := by
      by_contra hset
      rw [if_pos (Bool.eq_true_of_not_eq_false hset)] at herrno
      exact absurd herrno (by decide)
    rcases denotes_of_strtol hr (of_decide_eq_true hwhole) with ⟨-, hzero⟩ | ⟨v, hv, rfl⟩
    · -- the empty string is no number, and leaves a 0
      omega
    · obtain ⟨hmin, hmax⟩ := Scan.erange_ofInt.mp hrange
      rw [Scan.value_ofInt hmin hmax] at hpos
      exact .inr ⟨v, hv, hpos, hmax⟩

end Lib
