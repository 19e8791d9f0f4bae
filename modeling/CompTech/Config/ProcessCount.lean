import CompTech.Lib.CInt
import CompTech.Lib.Loop
import CompTech.Lib.Natural
import CompTech.Select.Wiring

/-!
# The number on the command line

`parsing_input` of the queue program and `get_num` of the relay are one function written twice; the
first looks at `argc` as well, for the second `main` has done so. A `long` comes from `strtol` and
is compared with 1; the function returns an `int`, and what does not fit is converted without
a word. So the number that is typed is the number of children, up to the largest `int` — one less
for `create_procs`, whose loop runs up to `num_proc + 1`.

`none` is undefined behaviour. `.error` is an exit, with the text that is printed. Every `fork`
succeeds.
-/

namespace CompTech.Config

open Lib

/-- What the two functions print; `perror` adds the text of `errno`. -/
def refusals : Refusals String where
  failed := "ERROR! strtol(): smth went wrong..."
  trailing := "ERROR! strtol(): not a number..."
  unnatural := "ERROR! Please, input natural number\n"

/-- The two functions from their `strtol` on; `errno` is what it was before, and the `long` is
    returned as an `int`. -/
def readNatural (errno : Int) (arg : CString) : Option (Except String Int) :=
  (strtolNatural refusals errno arg).map (·.map asInt)

/-- The program's name and one number. -/
def STDIN_ARGC : Nat := 2

/-- `parsing_input`: the number, if there is one argument. -/
def parsingInput (errno : Int) (argv : List CString) : Option (Except String Int) :=
  if argv.length ≠ STDIN_ARGC then
    some (.error "ERROR! Execute: ./a.out <number>\n")
  else
    argv[1]?.bind (readNatural errno)

/-- `get_num`: the number, from whatever arguments there are. -/
def getNum (errno : Int) (argv : List CString) : Option (Except String Int) :=
  argv[1]?.bind (readNatural errno)

/-- `create_procs` in the parent: `*i_proc` at the end, and the `*i_proc` of each child. -/
def createProcs (fuel : Nat) (iProc numProc : Int) : Option (Int × List Int) :=
  if INT_MAX < numProc + 1 then none
  else whileLoop (fun s : Int × List Int => s.1 < numProc + 1)
    (fun s => (s.1 + 1, s.2 ++ [s.1])) fuel (iProc, [])

/-! ## How many children -/

/-- The queue program with `numProc` starts `n` children. -/
def QueueStarts (numProc : Int) (n : Nat) : Prop :=
  ∃ children, children.length = n ∧
    ∀ fuel, n < fuel → createProcs fuel 1 numProc = some (numProc + 1, children)

/-- The relay with `numProc` starts `n` children. -/
def RelayStarts (numProc : Int) (n : Nat) : Prop :=
  ∃ forked, Select.forkChildren numProc.toNat = some forked ∧ forked.children.length = n

theorem createProcs_eq {v : Int} (hv : 1 ≤ v) (hmax : v < INT_MAX) {fuel : Nat}
    (hfuel : v.toNat < fuel) :
    createProcs fuel 1 v =
      some (v + 1, (List.range v.toNat).map fun (k : Nat) => (k : Int) + 1) := by
  rw [createProcs, if_neg (by omega)]
  have hlast : ((v.toNat : Nat) : Int) + 1 = v + 1 := by omega
  rw [← hlast]
  refine whileLoop_trace (n := v.toNat)
    (c := fun k => ((k : Int) + 1, (List.range k).map fun (j : Nat) => (j : Int) + 1))
    (fun k hk => ?_) (fun k _ => ?_) ?_ hfuel
  · show (k : Int) + 1 < (v.toNat : Int) + 1
    omega
  · simp [List.range_succ]
  · show ¬ (v.toNat : Int) + 1 < (v.toNat : Int) + 1
    omega

/-- With `INT_MAX` the bound of the loop overflows. -/
theorem queueStarts_iff {v : Int} (hv : 1 ≤ v) : QueueStarts v v.toNat ↔ v < INT_MAX := by
  constructor
  · rintro ⟨children, -, h⟩
    have hrun := h (v.toNat + 1) (Nat.lt_succ_self _)
    by_contra hmax
    rw [createProcs, if_pos (by omega)] at hrun
    exact absurd hrun (by simp)
  · intro hmax
    exact ⟨_, by simp, fun fuel hfuel => createProcs_eq hv hmax hfuel⟩

theorem relayStarts (v : Int) : RelayStarts v v.toNat :=
  ⟨_, Select.forkChildren_eq _, by simp⟩

/-! ## What is read

The scan and the three tests are those of `Lib.Natural`, and so is what is known about them. -/

/-- A number that fits a `long` is converted to an `int`. -/
theorem readNatural_of_denotes {arg : CString} {v : Int} (h : Denotes arg.chars v) (hv : 1 ≤ v)
    (hmax : v ≤ LONG_MAX) : readNatural 0 arg = some (.ok (asInt v)) := by
  rw [readNatural, strtolNatural_of_denotes h hv hmax]
  rfl

/-- What is refused is refused with one of the three texts. -/
theorem readNatural_cases (arg : CString) :
    (∃ text, readNatural 0 arg = some (.error text)) ∨
    ∃ v, Denotes arg.chars v ∧ 1 ≤ v ∧ v ≤ LONG_MAX := by
  refine (strtolNatural_cases refusals arg).imp_left ?_
  rintro ⟨text, htext⟩
  exact ⟨text, by rw [readNatural, htext]; rfl⟩

/-- The result is an error, or the number that is typed, and that many children are started. -/
def Counts (result : Option (Except String Int)) (arg : CString) (starts : Int → Nat → Prop) :
    Prop :=
  (∃ text, result = some (.error text)) ∨
  ∃ v, result = some (.ok v) ∧ Denotes arg.chars v ∧ 1 ≤ v ∧ starts v v.toNat

/-- With a program that starts the right number of children up to `last`. -/
theorem counts_iff {starts : Int → Nat → Prop} {last : Int} (hlast : 0 ≤ last ∧ last ≤ INT_MAX)
    (hstarts : ∀ v, 1 ≤ v → v ≤ INT_MAX → (starts v v.toNat ↔ v ≤ last)) (arg : CString) :
    Counts (readNatural 0 arg) arg starts ↔
      ∀ v, Denotes arg.chars v → v ≤ last ∨ LONG_MAX < v := by
  constructor
  · intro h v hv
    by_contra hbad
    have hread := readNatural_of_denotes hv (by omega) (by omega)
    rcases h with ⟨text, htext⟩ | ⟨w, hw, hden, hone, hrun⟩
    · rw [hread] at htext
      exact absurd htext (by simp)
    · obtain rfl : asInt v = w := by
        rw [hread] at hw
        simpa using hw
      have hsame : Scan.ofInt (asInt v) [NUL] = .ofInt v [NUL] := Option.some.inj
        ((strtol_of_denotes hden (by decide)).symm.trans (strtol_of_denotes hv (by decide)))
      have hvalue := congrArg Scan.value hsame
      have hrange := asInt_range v
      rw [Scan.value_ofInt (by unfold LONG_MIN; omega) (by unfold LONG_MAX; omega),
        Scan.value_ofInt (by unfold LONG_MIN; omega) (by omega)] at hvalue
      rw [hvalue] at hrange hrun hone
      have hle := (hstarts v hone (by unfold INT_MAX; omega)).mp hrun
      omega
  · intro h
    rcases readNatural_cases arg with herr | ⟨v, hv, hone, hmax⟩
    · exact .inl herr
    · have hle : v ≤ last := by
        rcases h v hv with hle | hgt
        · exact hle
        · omega
      have hint : asInt v = v := by
        rw [asInt_eq_self_iff]
        unfold INT_MAX at hlast
        omega
      have hread := readNatural_of_denotes hv hone hmax
      rw [hint] at hread
      exact .inr ⟨v, hread, hv, hone, (hstarts v hone (by omega)).mpr hle⟩

theorem queue_counts_iff (arg : CString) :
    Counts (readNatural 0 arg) arg QueueStarts ↔
      ∀ v, Denotes arg.chars v → v < INT_MAX ∨ LONG_MAX < v := by
  have hlast : (0 : Int) ≤ INT_MAX - 1 ∧ INT_MAX - 1 ≤ INT_MAX := by decide
  have h := counts_iff hlast (fun v hv _ => (queueStarts_iff hv).trans (by omega)) arg
  exact h.trans (forall₂_congr fun v _ => by omega)

theorem relay_counts_iff (arg : CString) :
    Counts (readNatural 0 arg) arg RelayStarts ↔
      ∀ v, Denotes arg.chars v → v ≤ INT_MAX ∨ LONG_MAX < v := by
  have hlast : (0 : Int) ≤ INT_MAX ∧ INT_MAX ≤ INT_MAX := by decide
  exact counts_iff hlast (fun v _ hle => iff_of_true (relayStarts v) hle) arg

/-- **What is typed is what is started**, in the two programs. What is not a positive number that
    fits a `long` is turned down; the rest is returned as an `int`, which keeps the lower half only.
    With `INT_MAX` itself the bound of one of the two loops overflows. -/
theorem process_counts_iff (prog arg file : CString) :
    (Counts (parsingInput 0 [prog, arg]) arg QueueStarts ↔
      ∀ v, Denotes arg.chars v → v < INT_MAX ∨ LONG_MAX < v) ∧
    (Counts (getNum 0 [prog, arg, file]) arg RelayStarts ↔
      ∀ v, Denotes arg.chars v → v ≤ INT_MAX ∨ LONG_MAX < v) :=
  ⟨queue_counts_iff arg, relay_counts_iff arg⟩

/-- `4294967297` is 2³² + 1. -/
def wrapping : CString := ⟨Nat.toDigits 10 4294967297, by decide⟩

/-- Where 4294967297 is typed, 1 is returned. -/
theorem process_counts_wrap :
    readNatural 0 wrapping = some (.ok 1) ∧
    ¬ Counts (parsingInput 0 [wrapping, wrapping]) wrapping QueueStarts ∧
    ¬ Counts (getNum 0 [wrapping, wrapping, wrapping]) wrapping RelayStarts := by
  have hden : Denotes wrapping.chars 4294967297 := denotes_toDigits 4294967297
  refine ⟨by rw [readNatural_of_denotes hden (by decide) (by decide)]; rfl,
    fun h => ?_, fun h => ?_⟩
  · exact absurd ((queue_counts_iff wrapping).mp h _ hden) (by decide)
  · exact absurd ((relay_counts_iff wrapping).mp h _ hden) (by decide)

end CompTech.Config
