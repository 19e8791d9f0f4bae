import CompTech.Lib.CInt
import CompTech.Lib.Natural
import CompTech.Lib.Run
import CompTech.Lib.Tables

/-!
# The children that nobody waits for

`main.c` of the third test task. The number on the command line is the number of children; the
parent forks them one after another and returns. Each child formats its line with `printf`, which
asks for the parent's pid, and writes it when it exits.

A child has its serial number, the place in `children` and one more. Of the parent's pid a line
has whether it is that of `main`: once `main` has returned, another process is the parent. The
calls of one process come one after another, those of different processes in any order, and a
`fork` may fail.

Two things are said about every run: how long it can be, and which lines can come out. Both go
through `Moves`, the list of what a step can do, and through two facts that every move keeps:
`LinesFromExited` and the number of steps that are left.
-/

namespace CompTech.TestTask.Forks

open Lib

/-! ## The number -/

/-- The program's name and the number. -/
def NUM_PARSING : Nat := 2

/-- `parsing_input`: the number's text, if there is one argument. -/
def parsingInput (argv : List CString) : Except String CString :=
  match argv[NUM_PARSING - 1]? with
  | some digitStr =>
    if argv.length ≠ NUM_PARSING then .error "ERROR! \nExecute: ./a.out <number>\n"
    else .ok digitStr
  | none => .error "ERROR! \nExecute: ./a.out <number>\n"

/-- What `my_strtol` prints. -/
def refusals : Refusals String where
  failed := "ERROR! strtol(): smth went wrong...\n"
  trailing := "ERROR! strtol(): not a number...\n"
  unnatural := "ERROR! Please, input natural number\n"

/-- `none` is undefined behaviour, `.error` an exit with the text that is printed. This one clears
    `errno` before it scans, and it returns a `long`. -/
def myStrtol (digitStr : CString) : Option (Except String Int) :=
  strtolNatural refusals 0 digitStr

/-- The rounds of the loop; its counter is an `int`. -/
def rounds (argv : List CString) : Option (Except String Nat) :=
  match parsingInput argv with
  | .error text => some (.error text)
  | .ok digitStr => (myStrtol digitStr).bind fun
    | .error text => some (.error text)
    | .ok inpDigit => if INT_MAX < inpDigit then none else some (.ok inpDigit.toNat)

theorem rounds_of_denotes (prog : CString) {arg : CString} {v : Int} (hv : Denotes arg.chars v)
    (hone : 1 ≤ v) (hmax : v ≤ INT_MAX) : rounds [prog, arg] = some (.ok v.toNat) := by
  have hlong : v ≤ LONG_MAX := by
    unfold LONG_MAX
    unfold INT_MAX at hmax
    omega
  have hread : myStrtol arg = some (.ok v) := strtolNatural_of_denotes hv hone hlong
  have hparse : parsingInput [prog, arg] = .ok arg := rfl
  rw [rounds, hparse]
  show (myStrtol arg).bind _ = _
  rw [hread, Option.bind_some]
  exact if_neg (by omega)

/-! ## The processes -/

/-- Where a child stands. -/
inductive Child
  | forked
  -- the line is in its buffer; is the parent's pid in it that of `main`?
  | printed (byMain : Bool)
  | exited
  deriving DecidableEq, Repr

/-- Where the parent stands; it exits with `EXIT_FAILURE` if a `fork` has failed. -/
inductive Parent
  | forking
  | exited (ok : Bool)
  deriving DecidableEq, Repr

/-- The processes and what is on the screen. -/
structure State where
  parent : Parent
  children : List Child
  -- the serial number of each line, and whether the parent's pid in it is that of `main`
  out : List (Nat × Bool)
  deriving DecidableEq, Repr

/-- The parent before its loop. -/
def start : State := ⟨.forking, [], []⟩

/-- A call of the parent, or of child `k`. -/
inductive Event
  -- a round of the loop with its `fork`, or the `return` behind it
  | parent (ok : Bool)
  | child (k : Nat)
  deriving DecidableEq, Repr

/-- One call. When a child formats its line, its parent is `main` as long as `main` runs. -/
def step (n : Nat) (s : State) : Event → Option State
  | .parent ok =>
    match s.parent with
    | .exited _ => none
    | .forking =>
      if s.children.length < n then
        some (if ok then { s with children := s.children ++ [.forked] }
          else { s with parent := .exited false })
      else some { s with parent := .exited true }
  | .child k =>
    match s.children[k]? with
    | some .forked =>
      some { s with children := s.children.set k (.printed (s.parent = .forking)) }
    | some (.printed byMain) =>
      some { s with children := s.children.set k .exited, out := s.out ++ [(k + 1, byMain)] }
    | some .exited | none => none

/-- No `fork` fails. -/
def NoFailure (_ : State) : Event → Prop
  | .parent ok => ok = true
  | .child _ => True

/-! ## What a step can do -/

variable {n k : Nat} {s t : State} {e : Event} {out : List (Nat × Bool)}

/-- What a step can do. -/
inductive Moves (n : Nat) (s : State) : State → Prop
  | forks (hparent : s.parent = .forking) (hlt : s.children.length < n) :
      Moves n s { s with children := s.children ++ [.forked] }
  | fails (hparent : s.parent = .forking) : Moves n s { s with parent := .exited false }
  | returns (hparent : s.parent = .forking) (hge : n ≤ s.children.length) :
      Moves n s { s with parent := .exited true }
  | prints (k : Nat) (hk : s.children[k]? = some .forked) :
      Moves n s { s with children := s.children.set k (.printed (s.parent = .forking)) }
  | exits (k : Nat) (byMain : Bool) (hk : s.children[k]? = some (.printed byMain)) :
      Moves n s { s with
        children := s.children.set k .exited, out := s.out ++ [(k + 1, byMain)] }

/-- Every step is one of these. -/
theorem step_moves (h : step n s e = some t) : Moves n s t := by
  cases e with
  | parent ok =>
    simp only [step] at h
    split at h
    · cases h
    · rename_i hparent
      split at h
      · rename_i hlt
        cases ok with
        | true =>
          cases h
          exact .forks hparent hlt
        | false =>
          cases h
          exact .fails hparent
      · cases h
        exact .returns hparent (Nat.le_of_not_lt ‹_›)
  | child k =>
    simp only [step] at h
    split at h
    · cases h
      exact .prints k ‹_›
    · cases h
      exact .exits k _ ‹_›
    · cases h
    · cases h

/-! ## What a run can do

Two invariants of the moves: which lines are out, and what is left to do. -/

/-- The lines are those of the children that have exited. -/
structure State.LinesFromExited (n : Nat) (s : State) : Prop where
  count : s.children.length ≤ n
  whole : s.parent = .exited true → s.children.length = n
  once : (s.out.map (·.1)).Nodup
  lines : ∀ m, m ∈ s.out.map (·.1) ↔ ∃ k, m = k + 1 ∧ s.children[k]? = some .exited

/-- The calls that are left to a child. -/
def Child.left : Child → Nat
  | .forked => 2
  | .printed _ => 1
  | .exited => 0

/-- With `m` rounds to go. -/
def Parent.left (m : Nat) : Parent → Nat
  | .forking => 3 * m + 1
  | .exited _ => 0

/-- And those that are left to all, with the children that are still to come. -/
def State.left (n : Nat) (s : State) : Nat :=
  s.parent.left (n - s.children.length) + (s.children.map Child.left).sum

theorem Moves.less (hm : Moves n s t) : t.left n < s.left n := by
  have hchild {k : Nat} {c c' : Child} (hk : s.children[k]? = some c) (hless : c'.left < c.left) :
      s.parent.left (n - (s.children.set k c').length) +
        ((s.children.set k c').map Child.left).sum < s.left n := by
    have hsum := sum_map_set Child.left (b := c') hk
    rw [List.length_set]
    unfold State.left
    omega
  cases hm with
  | forks hparent hlt =>
    show s.parent.left (n - (s.children ++ [Child.forked]).length) +
      ((s.children ++ [Child.forked]).map Child.left).sum < s.left n
    unfold State.left
    rw [hparent, List.length_append, List.map_append, List.sum_append]
    show 3 * (n - (s.children.length + 1)) + 1 + (_ + 2) < 3 * (n - s.children.length) + 1 + _
    omega
  | fails hparent | returns hparent hge =>
    show 0 + (s.children.map Child.left).sum < s.left n
    unfold State.left
    rw [hparent]
    exact Nat.add_lt_add_right (Nat.succ_pos _) _
  | prints k hk => exact hchild hk (by show 1 < 2; omega)
  | exits k byMain hk => exact hchild hk (by show 0 < 1; omega)

/-- The children that have exited are the same ones. -/
theorem State.LinesFromExited.of_exited {parent : Parent} {children : List Child}
    (h : s.LinesFromExited n) (hcount : children.length ≤ n)
    (hwhole : parent = .exited true → children.length = n)
    (hsame : ∀ k : Nat, children[k]? = some .exited ↔ s.children[k]? = some .exited) :
    State.LinesFromExited n ⟨parent, children, s.out⟩ :=
  ⟨hcount, hwhole, h.once, fun m => (h.lines m).trans (exists_congr fun k =>
    and_congr_right fun _ => (hsame k).symm)⟩

/-- One more has exited. -/
theorem State.LinesFromExited.exits (h : s.LinesFromExited n) {byMain : Bool}
    (hk : s.children[k]? = some (.printed byMain)) : State.LinesFromExited n { s with
      children := s.children.set k .exited, out := s.out ++ [(k + 1, byMain)] } := by
  have hlt := (List.getElem?_eq_some_iff.mp hk).1
  have hset (j : Nat) : (s.children.set k .exited)[j]? = some .exited ↔
      j = k ∨ s.children[j]? = some .exited := by
    rw [List.getElem?_set]
    by_cases hkj : k = j
    · simp [hkj, hkj ▸ hlt]
    · simp [hkj, Ne.symm hkj]
  have hnew : k + 1 ∉ s.out.map (·.1) := fun hmem => by
    obtain ⟨j, hj, hexited⟩ := (h.lines _).mp hmem
    obtain rfl : k = j := by omega
    rw [hk] at hexited
    cases hexited
  refine ⟨by simpa using h.count, by simpa using h.whole, ?_, fun m => ?_⟩
  · rw [List.map_append]
    refine List.nodup_append.mpr ⟨h.once, List.nodup_singleton _, fun a ha b hb => ?_⟩
    rw [List.mem_singleton.mp hb]
    rintro rfl
    exact hnew ha
  · rw [List.map_append, List.mem_append, h.lines m]
    constructor
    · rintro (⟨j, rfl, hj⟩ | hm)
      · exact ⟨j, rfl, (hset j).mpr (.inr hj)⟩
      · exact ⟨k, List.mem_singleton.mp hm, (hset k).mpr (.inl rfl)⟩
    · rintro ⟨j, rfl, hj⟩
      rcases (hset j).mp hj with rfl | hj
      · exact .inr (List.mem_singleton.mpr rfl)
      · exact .inl ⟨j, rfl, hj⟩

theorem State.LinesFromExited.step (h : s.LinesFromExited n) (hm : Moves n s t) :
    t.LinesFromExited n := by
  cases hm with
  | forks hparent hlt =>
    refine h.of_exited (by simpa using hlt) (fun hc => ?_) fun k => ?_
    · rw [hparent] at hc
      cases hc
    · rw [List.getElem?_append]
      split
      · exact Iff.rfl
      · rename_i hge
        rw [List.getElem?_eq_none (Nat.le_of_not_lt hge), List.getElem?_singleton]
        split <;> simp
  | fails hparent => exact h.of_exited h.count (fun hc => by cases hc) fun _ => Iff.rfl
  | returns hparent hge =>
    exact h.of_exited h.count (fun _ => Nat.le_antisymm h.count hge) fun _ => Iff.rfl
  | prints k hk =>
    refine h.of_exited (by simpa using h.count) (by simpa using h.whole) fun j => ?_
    rw [List.getElem?_set]
    split
    · rename_i hkj
      subst hkj
      rw [hk]
      split <;> simp
    · exact Iff.rfl
  | exits k byMain hk => exact h.exits hk

theorem State.LinesFromExited.start : Forks.start.LinesFromExited n :=
  ⟨Nat.zero_le n, fun hc => (by cases hc), List.nodup_nil, fun m => (by simp [Forks.start])⟩

/-- Nobody is left, and all lines are there. -/
theorem State.LinesFromExited.perm (h : s.LinesFromExited n)
    (hstuck : ∀ e, Forks.step n s e = none) :
    (∃ ok, s.parent = .exited ok) ∧ (s.out.map (·.1)).Perm (List.range' 1 s.children.length) := by
  have hparent : ∃ ok, s.parent = .exited ok := by
    have hp := hstuck (.parent true)
    simp only [Forks.step] at hp
    cases hpar : s.parent with
    | exited ok => exact ⟨ok, rfl⟩
    | forking =>
      rw [hpar] at hp
      dsimp only at hp
      split at hp <;> cases hp
  have hexited : ∀ k, k < s.children.length → s.children[k]? = some .exited := by
    intro k hk
    have hc := hstuck (.child k)
    simp only [Forks.step] at hc
    split at hc
    · cases hc
    · cases hc
    · assumption
    · rename_i hnone
      exact absurd (List.getElem?_eq_none_iff.mp hnone) (Nat.not_le.mpr hk)
  refine ⟨hparent, (List.perm_ext_iff_of_nodup h.once List.nodup_range').mpr fun m => ?_⟩
  rw [h.lines, List.mem_range'_1]
  constructor
  · rintro ⟨k, rfl, hk⟩
    have hlt := (List.getElem?_eq_some_iff.mp hk).1
    omega
  · rintro ⟨hlo, hhi⟩
    exact ⟨m - 1, by omega, hexited _ (by omega)⟩

/-! ## Every order comes about -/

/-- `k` rounds of the loop. -/
theorem run_forks (hk : k ≤ n) : ∃ es, Run (step n) NoFailure start es
    ⟨.forking, (List.range k).map fun _ => .forked, []⟩ := by
  induction k with
  | zero => exact ⟨[], .nil⟩
  | succ k ih =>
    obtain ⟨es, hr⟩ := ih (Nat.le_of_succ_le hk)
    refine ⟨es ++ [.parent true], hr.snoc (show NoFailure _ (.parent true) from rfl) ?_⟩
    have hlt : ((List.range k).map fun _ => Child.forked).length < n := by
      simpa using Nat.lt_of_succ_le hk
    show (if _ < n then _ else _) = _
    rw [if_pos hlt, if_pos rfl, List.range_succ, List.map_append]
    rfl

/-- The children in `g` format their lines. -/
theorem run_prints (parent : Parent) (out : List (Nat × Bool)) (c : Nat → Child) (g : Nat → Bool)
    (hc : ∀ j, g j = true → c j = .forked) {m : Nat} (hm : m ≤ k) :
    ∃ es, Run (step n) NoFailure ⟨parent, (List.range k).map c, out⟩ es
      ⟨parent, (List.range k).map fun j =>
        if j < m ∧ g j = true then .printed (parent = .forking) else c j, out⟩ := by
  induction m with
  | zero =>
    refine ⟨[], ?_⟩
    have hnone : (fun j => if j < 0 ∧ g j = true then Child.printed (parent = .forking) else c j) =
        c := funext fun j => if_neg fun hj => absurd hj.1 (Nat.not_lt_zero j)
    rw [hnone]
    exact .nil
  | succ m ih =>
    obtain ⟨es, hr⟩ := ih (Nat.le_of_succ_le hm)
    by_cases hg : g m = true
    · refine ⟨es ++ [.child m], hr.snoc (show NoFailure _ (.child m) from trivial) ?_⟩
      have hforked : (if m < m ∧ g m = true then Child.printed (parent = .forking) else c m) =
          .forked := (if_neg fun hj => absurd hj.1 (Nat.lt_irrefl m)).trans (hc m hg)
      have hget := (getElem?_map_range (f := fun j =>
        if j < m ∧ g j = true then Child.printed (parent = .forking) else c j) hm).trans
          (congrArg some hforked)
      simp only [step, hget]
      rw [map_range_set]
      refine congrArg (fun f => some (State.mk parent ((List.range k).map f) out))
        (funext fun j => ?_)
      by_cases hj : j = m
      · subst hj
        rw [if_pos rfl, if_pos ⟨Nat.lt_succ_self j, hg⟩]
      · rw [if_neg hj]
        refine if_congr (and_congr_left fun _ => ?_) rfl rfl
        omega
    · refine ⟨es, ?_⟩
      have hsame : (fun j => if j < m + 1 ∧ g j = true then
          Child.printed (parent = .forking) else c j) =
          fun j => if j < m ∧ g j = true then Child.printed (parent = .forking) else c j := by
        funext j
        refine if_congr ⟨fun ⟨hj, hgj⟩ => ⟨?_, hgj⟩, fun ⟨hj, hgj⟩ => ⟨by omega, hgj⟩⟩ rfl rfl
        have hne : j ≠ m := fun h => hg (h ▸ hgj)
        omega
      rw [hsame]
      exact hr

/-- Of each child whose line is in `out` nothing is left; the others have formatted theirs. -/
def written (g : Nat → Bool) (out : List (Nat × Bool)) (j : Nat) : Child :=
  if j + 1 ∈ out.map (·.1) then .exited else .printed (g j)

/-- The children exit in the order of the lines. -/
theorem run_exits (parent : Parent) (g : Nat → Bool) (before : List (Nat × Bool))
    {after : List (Nat × Bool)} (hnodup : ((before ++ after).map (·.1)).Nodup)
    (hlines : ∀ l ∈ after, ∃ j, j < k ∧ l = (j + 1, g j)) :
    ∃ es, Run (step n) NoFailure ⟨parent, (List.range k).map (written g before), before⟩ es
      ⟨parent, (List.range k).map (written g (before ++ after)), before ++ after⟩ := by
  induction after generalizing before with
  | nil =>
    rw [List.append_nil]
    exact ⟨[], .nil⟩
  | cons l after ih =>
    obtain ⟨j, hj, rfl⟩ := hlines l List.mem_cons_self
    have hnot : j + 1 ∉ before.map (·.1) := fun hmem => by
      rw [List.map_append, List.map_cons] at hnodup
      exact (List.nodup_append.mp hnodup).2.2 _ hmem _ List.mem_cons_self rfl
    have hsplit : before ++ (j + 1, g j) :: after = (before ++ [(j + 1, g j)]) ++ after := by
      rw [List.append_assoc, List.singleton_append]
    rw [hsplit] at hnodup ⊢
    obtain ⟨es, hr⟩ := ih _ hnodup fun l hl => hlines l (List.mem_cons_of_mem _ hl)
    refine ⟨.child j :: es, .cons trivial ?_ hr⟩
    have hget := (getElem?_map_range (f := written g before) hj).trans
      (congrArg some (if_neg hnot))
    simp only [step, hget]
    rw [map_range_set]
    refine congrArg (fun f => some (State.mk parent ((List.range k).map f)
      (before ++ [(j + 1, g j)]))) (funext fun i => ?_)
    show _ = if i + 1 ∈ (before ++ [(j + 1, g j)]).map (·.1) then Child.exited
      else Child.printed (g i)
    rw [List.map_append, List.map_singleton]
    by_cases hi : i = j
    · subst hi
      rw [if_pos rfl, if_pos (List.mem_append_right _ (List.mem_singleton.mpr rfl))]
    · rw [if_neg hi]
      refine if_congr ?_ rfl rfl
      rw [List.mem_append, List.mem_singleton]
      exact ⟨.inl, fun h => h.resolve_right fun heq => hi (by omega)⟩

/-- The pids that a list of lines shows. -/
def byMainOf (out : List (Nat × Bool)) (j : Nat) : Bool := decide ((j + 1, true) ∈ out)

theorem line_eq (hperm : (out.map (·.1)).Perm (List.range' 1 k)) {l : Nat × Bool} (hl : l ∈ out) :
    ∃ j, j < k ∧ l = (j + 1, byMainOf out j) := by
  obtain ⟨m, byMain⟩ := l
  have hm : m ∈ List.range' 1 k := hperm.subset (List.mem_map_of_mem hl)
  rw [List.mem_range'_1] at hm
  obtain ⟨j, rfl⟩ : ∃ j, m = j + 1 := ⟨m - 1, by omega⟩
  refine ⟨j, by omega, Prod.ext rfl ?_⟩
  have hnodup : (out.map (·.1)).Nodup := hperm.nodup_iff.mpr List.nodup_range'
  cases byMain with
  | true => exact (decide_eq_true hl).symm
  | false =>
    refine (decide_eq_false fun htrue => ?_).symm
    cases List.inj_on_of_nodup_map hnodup hl htrue rfl

/-- `main` ends after `k` rounds, by a `fork` that fails if these are not all. -/
theorem step_end {children : List Child} (hlen : children.length = k) (hk : k ≤ n) :
    step n ⟨.forking, children, out⟩ (.parent (decide (k = n))) =
      some ⟨.exited (decide (k = n)), children, out⟩ := by
  show (if children.length < n then _ else _) = _
  rw [hlen]
  by_cases hkn : k = n
  · rw [if_neg (by omega), decide_eq_true hkn]
  · rw [if_pos (by omega), decide_eq_false hkn]
    rfl

/-- A run with the lines `out`: the children whose line has the pid of `main` format it before
    `main` ends, the others afterwards. -/
theorem exists_run {ok : State → Event → Prop} (hno : ∀ s e, NoFailure s e → ok s e)
    (hend : ∀ s, ok s (.parent (decide (k = n)))) (hk : k ≤ n)
    (hperm : (out.map (·.1)).Perm (List.range' 1 k)) :
    ∃ es s, Run (step n) ok start es s ∧ (∀ e, step n s e = none) ∧ s.out = out := by
  obtain ⟨g, hg⟩ : ∃ g, g = byMainOf out := ⟨_, rfl⟩
  obtain ⟨es₁, hforks⟩ := run_forks hk
  obtain ⟨es₂, hfirst⟩ := run_prints (n := n) .forking [] (fun _ => .forked) g
    (fun _ _ => rfl) (Nat.le_refl k)
  obtain ⟨es₃, hsecond⟩ := run_prints (n := n) (.exited (decide (k = n))) []
    (fun j => if j < k ∧ g j = true then .printed true else .forked) (fun j => !g j)
    (fun j hj => if_neg fun hc => by simp [hc.2] at hj) (Nat.le_refl k)
  have hwritten : (List.range k).map (fun j => if j < k ∧ (!g j) = true then
      Child.printed (decide (Parent.exited (decide (k = n)) = .forking)) else
        if j < k ∧ g j = true then .printed true else .forked) =
      (List.range k).map (written g []) := by
    refine List.map_congr_left fun j hj => ?_
    have hlt := List.mem_range.mp hj
    cases hgj : g j <;> simp [hlt, hgj, written]
  rw [hwritten] at hsecond
  obtain ⟨es₄, hexits⟩ := run_exits (n := n) (.exited (decide (k = n))) g []
    (hperm.nodup_iff.mpr List.nodup_range') fun l hl => hg ▸ line_eq hperm hl
  have hstart := ((hforks.append hfirst).mono hno).snoc (hend _) (step_end (by simp) hk)
  refine ⟨_, _, hstart.append ((hsecond.append hexits).mono hno), fun e => ?_, rfl⟩
  cases e with
  | parent ok => rfl
  | child j =>
    by_cases hj : j < k
    · have hmem : j + 1 ∈ out.map (·.1) :=
        hperm.symm.subset (List.mem_range'_1.mpr ⟨by omega, by omega⟩)
      have hget := (getElem?_map_range (f := written g out) hj).trans
        (congrArg some (if_pos hmem))
      simp only [step, List.nil_append, hget]
    · have hnone : ((List.range k).map (written g out))[j]? = none :=
        List.getElem?_eq_none (by simpa using Nat.le_of_not_lt hj)
      simp only [step, List.nil_append, hnone]

/-! ## All that can be seen -/

/-- `out` is on the screen at the end of a run of steps that `ok` admits. -/
def Prints (n : Nat) (ok : State → Event → Prop) (out : List (Nat × Bool)) : Prop :=
  ∃ es s, Run (step n) ok start es s ∧ (∀ e, step n s e = none) ∧ s.out = out

/-- No `fork` has failed. -/
def State.Unfailed (s : State) : Prop := s.parent ≠ .exited false

theorem State.Unfailed.step (h : s.Unfailed) (hok : NoFailure s e)
    (hst : Forks.step n s e = some t) : t.Unfailed := by
  cases e with
  | parent ok =>
    obtain rfl : ok = true := hok
    simp only [Forks.step] at hst
    split at hst
    · cases hst
    · split at hst <;> cases hst
      · exact h
      · exact fun hc => by cases hc
  | child k =>
    simp only [Forks.step] at hst
    split at hst <;> cases hst <;> exact h

theorem prints_iff : Prints n Always out ↔ ∃ k, k ≤ n ∧ (out.map (·.1)).Perm (List.range' 1 k) := by
  constructor
  · rintro ⟨es, s, hr, hstuck, rfl⟩
    have hexited : s.LinesFromExited n :=
      hr.invariant .start fun _ _ _ h _ hst => h.step (step_moves hst)
    exact ⟨_, hexited.count, (hexited.perm hstuck).2⟩
  · rintro ⟨k, hk, hperm⟩
    exact exists_run (fun _ _ _ => trivial) (fun _ => trivial) hk hperm

theorem prints_noFailure_iff :
    Prints n NoFailure out ↔ (out.map (·.1)).Perm (List.range' 1 n) := by
  constructor
  · rintro ⟨es, s, hr, hstuck, rfl⟩
    have hexited : s.LinesFromExited n :=
      hr.invariant .start fun _ _ _ h _ hst => h.step (step_moves hst)
    have hstart : start.Unfailed := fun hc => by cases hc
    have hparent : s.Unfailed := hr.invariant hstart fun _ _ _ h hok hst => h.step hok hst
    obtain ⟨⟨ok, hok⟩, hperm⟩ := hexited.perm hstuck
    cases ok with
    | false => exact absurd hok hparent
    | true => rwa [hexited.whole hok] at hperm
  · intro hperm
    exact exists_run (fun _ _ h => h) (fun _ => decide_eq_true rfl) (Nat.le_refl n) hperm

/-- **What is promised of the screen** is the lines and nothing else. For every natural number that
    is typed and fits an `int`: every run ends, and the outputs of those without a failure are the
    `n` lines in each of their orders, each with the pid of `main` or that of another parent. Where
    the `fork` behind `k` children fails, they are those of `k`. -/
theorem forks_run (prog : CString) {arg : CString} {v : Int} (hv : Denotes arg.chars v)
    (hone : 1 ≤ v) (hmax : v ≤ INT_MAX) : ∃ n : Nat, v = n ∧ rounds [prog, arg] = some (.ok n) ∧
      (∀ es s, Run (step n) Always start es s → es.length ≤ 3 * n + 1) ∧
      ∀ out, (Prints n NoFailure out ↔ (out.map (·.1)).Perm (List.range' 1 n)) ∧
        (Prints n Always out ↔ ∃ k, k ≤ n ∧ (out.map (·.1)).Perm (List.range' 1 k)) := by
  refine ⟨v.toNat, by omega, rounds_of_denotes prog hv hone hmax, fun es s hr => ?_,
    fun out => ⟨prints_noFailure_iff, prints_iff⟩⟩
  have hless : ∀ s e t, True → Always s e → step v.toNat s e = some t →
      True ∧ t.left v.toNat < s.left v.toNat := fun _ _ _ _ _ hst =>
    ⟨trivial, (step_moves hst).less⟩
  have hlength := hr.length_le trivial hless
  simpa [State.left, start, Parent.left] using hlength

/-- Two children: the second is first, and its parent is gone. -/
theorem forks_run_two : Prints 2 NoFailure [(2, false), (1, true)] := by
  have hv : Denotes (CString.mk (Nat.toDigits 10 2) (by decide)).chars (2 : Nat) :=
    denotes_toDigits 2
  obtain ⟨n, hn, -, -, hall⟩ := forks_run ⟨[], by simp⟩ hv (by decide) (by decide)
  obtain rfl : 2 = n := by omega
  exact (hall _).1.mpr (by decide)

end CompTech.TestTask.Forks
