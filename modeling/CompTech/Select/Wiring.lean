import CompTech.Lib.Stores
import CompTech.Lib.Tables

/-!
# Which descriptor goes where

`transfer_data` picks its descriptors in two loops. The first forks the children: for each it
makes a pipe to the parent and a pipe from the parent, the child keeps one end of each, the
parent stores the other two in `info_elems`. The second builds the parent's connection table
from `info_elems`.

A descriptor is modelled by what it refers to, so that "who writes the pipe this one reads" is
a question about equality of pipes. `pipe2` answers with a pipe no one has seen before.

The middle of the chain is wired as intended (`wired_middle`). Its end is not, for any number
of processes: the loop over the children never sees `i_chld == num_proc`, and the table loop
reads one element past the end of `info_elems`.

Both loops are kept as loops over the number of the child, with the bounds of the code, and each is
then brought to a closed form (`forkChild_eq`, `connOf`): round `k` makes pipes `2k` and `2k + 1`,
child `k` reads the second and writes the first. Everything about the chain is read off these forms.
-/

namespace CompTech.Select

/-- What a descriptor refers to. -/
inductive Fd
  | closed
  -- the file that is transferred
  | file
  | stdout
  -- the end of a pipe that is read
  | pipeRd (pipe : Nat)
  -- the end that is written
  | pipeWr (pipe : Nat)
  deriving DecidableEq, Repr

/-- The two ends of a pipe, as the `int [2]` of `pipe2`. -/
structure PipeFds where
  rd : Fd
  wr : Fd
  deriving DecidableEq

/-- An `info_elem`: the two pipes of a child, as much of them as a process has open. -/
structure InfoElem where
  fdToPrnt : PipeFds
  fdFromPrnt : PipeFds
  deriving DecidableEq

/-- What `calloc` leaves in an element. No code path reads it. -/
def zeroElem : InfoElem := ⟨⟨.closed, .closed⟩, ⟨.closed, .closed⟩⟩

/-- `pipe2`. Pipes are numbered in the order in which they are made. -/
def pipe2 (fresh : Nat) : PipeFds × Nat := (⟨.pipeRd fresh, .pipeWr fresh⟩, fresh + 1)

/-- The descriptors child `iChld` ends up with: the one it reads and the one it writes. -/
def childFds (numProc iChld : Nat) (curElem : InfoElem) : Fd × Fd :=
  let fdFromPrnt := { curElem.fdFromPrnt with wr := .closed }
  let fdToPrnt := { curElem.fdToPrnt with rd := .closed }
  let fdRd := if iChld = 0 then .file else fdFromPrnt.rd
  -- the last child is meant; its number is `numProc - 1`
  let fdWr := if iChld = numProc then .stdout else fdToPrnt.wr
  (fdRd, fdWr)

/-- What the loop over the children carries. -/
structure Forked where
  fresh : Nat
  infoElems : List InfoElem
  children : List (Fd × Fd)

/-- One round of the first loop: two pipes, the child with its descriptors, and the parent's own
    ends in `info_elems`. -/
def forkChild (numProc : Nat) (s : Forked) (iChld : Nat) : Option Forked := do
  let (fdToPrnt, fresh) := pipe2 s.fresh
  let (fdFromPrnt, fresh) := pipe2 fresh
  let curElem : InfoElem := ⟨fdToPrnt, fdFromPrnt⟩
  let child := childFds numProc iChld curElem
  let kept : InfoElem :=
    ⟨{ fdToPrnt with wr := .closed }, { fdFromPrnt with rd := .closed }⟩
  let infoElems ← Lib.storeAt s.infoElems iChld fun _ => kept
  return ⟨fresh, infoElems, s.children ++ [child]⟩

/-- The first loop. -/
def forkChildren (numProc : Nat) : Option Forked :=
  (List.range' 0 numProc).foldlM (forkChild numProc)
    ⟨0, List.replicate numProc zeroElem, []⟩

/-- One entry of the parent's table: its descriptors, and the elements it reads them from.
    `none` is a load outside `info_elems`. -/
structure Connect where
  fdRd : Option Fd
  fdWr : Option Fd
  reads : List Nat
  deriving DecidableEq

/-- One round of the second loop. It takes what connection `iPrnt` reads from its own element, and
    what it writes from the next one. -/
def connect (infoElems : List InfoElem) (iPrnt : Nat) : Connect where
  fdRd := infoElems[iPrnt]?.map (·.fdToPrnt.rd)
  fdWr := infoElems[iPrnt + 1]?.map (·.fdFromPrnt.wr)
  reads := [iPrnt, iPrnt + 1]

/-- The children's descriptors and the parent's table. -/
def wiring (numProc : Nat) : Option (List (Fd × Fd) × List Connect) := do
  let forked ← forkChildren numProc
  return (forked.children, (List.range numProc).map (connect forked.infoElems))

/-! ## The path from the file to standard output -/

/-- What `numProc` children and the table have to be for the data to run through all of
    them. -/
structure Wired (numProc : Nat) (children : List (Fd × Fd)) (conns : List Connect) : Prop where
  /-- child 0 reads the file, and nobody else does -/
  first : ∀ k c, children[k]? = some c → (c.1 = .file ↔ k = 0)
  /-- every other child reads what the connection before it writes -/
  fed : ∀ k c t, 1 ≤ k → children[k]? = some c → conns[k - 1]? = some t →
    ∃ p, c.1 = .pipeRd p ∧ t.fdWr = some (.pipeWr p)
  /-- and writes what its own connection reads -/
  drained : ∀ k c t, k + 1 < numProc → children[k]? = some c → conns[k]? = some t →
    ∃ p, c.2 = .pipeWr p ∧ t.fdRd = some (.pipeRd p)
  /-- except for the last one -/
  last : ∀ c, children[numProc - 1]? = some c → c.2 = .stdout
  /-- the table is built from elements that are there -/
  inside : ∀ t ∈ conns, ∀ k ∈ t.reads, k < numProc

/-- The program makes such a chain. -/
def WiredUp (numProc : Nat) : Prop :=
  ∃ children conns, wiring numProc = some (children, conns) ∧
    children.length = numProc ∧ conns.length = numProc ∧ Wired numProc children conns

/-- Child `k`, and what the parent keeps of its pipes, in closed form. -/
def childOf (k : Nat) : Fd × Fd :=
  (if k = 0 then .file else .pipeRd (2 * k + 1), .pipeWr (2 * k))

/-- What the parent keeps of the pipes of child `k`. -/
def elemOf (k : Nat) : InfoElem := ⟨⟨.pipeRd (2 * k), .closed⟩, ⟨.closed, .pipeWr (2 * k + 1)⟩⟩

/-- Round `k < numProc` of the loop: the test for the last child is never true. -/
theorem forkChild_eq {numProc k : Nat} (hk : k < numProc) (elems : List InfoElem)
    (children : List (Fd × Fd)) (hlen : elems.length = numProc) :
    forkChild numProc ⟨2 * k, elems, children⟩ k =
      some ⟨2 * (k + 1), elems.set k (elemOf k), children ++ [childOf k]⟩ := by
  have hne : k ≠ numProc := Nat.ne_of_lt hk
  unfold forkChild
  simp only [pipe2, childFds, if_neg hne,
    Lib.storeAt_eq_set _ zeroElem (show k < elems.length by omega)]
  rfl

/-- The first loop in closed form. Induction on the number of rounds, with the elements that are
    still those of `calloc`. -/
theorem forkChildren_eq (numProc : Nat) :
    forkChildren numProc = some ⟨2 * numProc, (List.range numProc).map elemOf,
      (List.range numProc).map childOf⟩ := by
  have hloop : ∀ k, k ≤ numProc → (List.range' 0 k).foldlM (forkChild numProc)
      ⟨0, List.replicate numProc zeroElem, []⟩ = some ⟨2 * k,
        (List.range k).map elemOf ++ List.replicate (numProc - k) zeroElem,
        (List.range k).map childOf⟩ := by
    intro k
    induction k with
    | zero => intro _; rfl
    | succ k ih =>
      intro hk
      rw [List.range'_concat, List.foldlM_append, ih (by omega)]
      have hlen : ((List.range k).map elemOf ++
          List.replicate (numProc - k) zeroElem).length = numProc := by
        simp only [List.length_append, List.length_map, List.length_range, List.length_replicate]
        omega
      have hround := forkChild_eq (show k < numProc by omega) _ ((List.range k).map childOf) hlen
      have hset : ((List.range k).map elemOf ++ List.replicate (numProc - k) zeroElem).set k
          (elemOf k) = (List.range (k + 1)).map elemOf ++
            List.replicate (numProc - (k + 1)) zeroElem := by
        rw [List.set_append_right _ _ (by simp), List.length_map, List.length_range, Nat.sub_self,
          show numProc - k = numProc - (k + 1) + 1 by omega, List.replicate_succ,
          List.set_cons_zero, List.range_succ, List.map_append, List.append_assoc]
        rfl
      rw [hset] at hround
      simp only [Option.bind_eq_bind, Option.bind_some, List.foldlM_cons, List.foldlM_nil,
        Nat.zero_add, Nat.one_mul, hround, List.range_succ, List.map_append, List.map_cons,
        List.map_nil]
      rfl
  have h := hloop numProc (Nat.le_refl _)
  rwa [Nat.sub_self, List.replicate_zero, List.append_nil] at h

/-- Entry `k` of the table. The last entry reads past the end of `info_elems`. -/
def connOf (numProc k : Nat) : Connect where
  fdRd := some (.pipeRd (2 * k))
  fdWr := if k + 1 < numProc then some (.pipeWr (2 * (k + 1) + 1)) else none
  reads := [k, k + 1]

/-- The whole of it in closed form. -/
theorem wiring_eq (numProc : Nat) :
    wiring numProc =
      some ((List.range numProc).map childOf, (List.range numProc).map (connOf numProc)) := by
  rw [wiring, forkChildren_eq]
  refine congrArg (fun conns => some (_, conns)) (List.map_congr_left fun k hk => ?_)
  have hk' : k < numProc := List.mem_range.mp hk
  unfold connect connOf
  rw [List.getElem?_map, List.getElem?_map, List.getElem?_range hk']
  by_cases h : k + 1 < numProc
  · rw [List.getElem?_range h, if_pos h]
    rfl
  · rw [List.getElem?_eq_none (by rw [List.length_range]; omega), if_neg h]
    rfl

/-- Up to the last child the chain is as it should be: child 0 alone reads the file, and the
    pipes between the children and the parent's connections match. -/
theorem wired_middle {numProc : Nat} {children : List (Fd × Fd)} {conns : List Connect}
    (h : wiring numProc = some (children, conns)) :
    (∀ (k : Nat) (c : Fd × Fd), children[k]? = some c → (c.1 = .file ↔ k = 0)) ∧
    (∀ (k : Nat) (c : Fd × Fd) (t : Connect), 1 ≤ k → children[k]? = some c →
      conns[k - 1]? = some t → ∃ p, c.1 = .pipeRd p ∧ t.fdWr = some (.pipeWr p)) ∧
    (∀ (k : Nat) (c : Fd × Fd) (t : Connect), children[k]? = some c → conns[k]? = some t →
      ∃ p, c.2 = .pipeWr p ∧ t.fdRd = some (.pipeRd p)) := by
  rw [wiring_eq, Option.some.injEq, Prod.mk.injEq] at h
  obtain ⟨rfl, rfl⟩ := h
  refine ⟨fun k c hc => ?_, fun k c t hk hc ht => ?_, fun k c t hc ht => ?_⟩
  · obtain ⟨_, rfl⟩ := Lib.eq_of_getElem?_map_range hc
    by_cases hk : k = 0 <;> simp [childOf, hk]
  · obtain ⟨hlt, rfl⟩ := Lib.eq_of_getElem?_map_range hc
    obtain ⟨_, rfl⟩ := Lib.eq_of_getElem?_map_range ht
    refine ⟨2 * k + 1, ?_, ?_⟩
    · simp only [childOf, if_neg (show ¬ k = 0 by omega)]
    · simp only [connOf, Nat.sub_add_cancel hk, if_pos hlt]
  · obtain ⟨_, rfl⟩ := Lib.eq_of_getElem?_map_range hc
    obtain ⟨_, rfl⟩ := Lib.eq_of_getElem?_map_range ht
    exact ⟨2 * k, rfl, rfl⟩

/-- The last child writes its pipe to the parent. -/
theorem last_not_stdout {numProc : Nat} (hn : 1 ≤ numProc) {children : List (Fd × Fd)}
    {conns : List Connect} (h : wiring numProc = some (children, conns)) :
    ∃ c, children[numProc - 1]? = some c ∧ c.2 ≠ .stdout := by
  rw [wiring_eq, Option.some.injEq, Prod.mk.injEq] at h
  obtain ⟨rfl, -⟩ := h
  refine ⟨childOf (numProc - 1), ?_, by simp [childOf]⟩
  rw [List.getElem?_map, List.getElem?_range (by omega)]
  rfl

/-- **No chain is wired up.** For every number of processes the last child does not write standard
    output. The test for the last child compares `i_chld` with `num_proc`, which the loop does not
    reach. -/
theorem not_wiredUp {numProc : Nat} (hn : 1 ≤ numProc) : ¬ WiredUp numProc := by
  rintro ⟨children, conns, h, -, -, hwired⟩
  obtain ⟨c, hc, hne⟩ := last_not_stdout hn h
  exact hne (hwired.last c hc)

theorem not_wiredUp_two : ¬ WiredUp 2 := not_wiredUp (by decide)

/-- One process: the only child reads the file and writes a pipe to the parent. -/
theorem exists_not_wiredUp : ¬ ∀ numProc, 1 ≤ numProc → WiredUp numProc := by
  intro hall
  obtain ⟨children, conns, h, -, -, hwired⟩ := hall 1 (Nat.le_refl 1)
  rw [show wiring 1 = some ([(.file, .pipeWr 0)],
    [⟨some (.pipeRd 0), none, [0, 1]⟩]) by decide, Option.some.injEq, Prod.mk.injEq] at h
  obtain ⟨rfl, rfl⟩ := h
  exact absurd (hwired.last _ rfl) (by decide)

end CompTech.Select
