import CompTech.Network.CpuInfo

/-!
# An array that grows

`add_to_processors_array` and `add_to_cpus_array` ask for `2 * position + 1` elements and record
`2 * position` of them, 0 for the first. So the recorded size says less than there is, and at
position 0 nothing; what a call can rely on is `Fits`: that both the recorded size and the elements
in use are allocated. Each call keeps it (`addToArray_cases`), and the elements that were there.

`realloc` keeps the elements up to the smaller size, and what is behind them is whatever the memory
holds; nothing below depends on that.
-/

namespace CompTech.Network

open Lib

/-! ## One call -/

section

variable {α : Type} {fresh : Nat → α} {grows : Bool} {arr : Option (List α)}
  {size size' position : Nat} {elem : α} {block : List α}

/-- The recorded size is allocated, and so is what is in use. -/
structure Fits (arr : Option (List α)) (size position : Nat) : Prop where
  recorded : size ≤ (arr.getD []).length
  used : position ≤ (arr.getD []).length

/-- `*arr` and `*size` when it comes to the store: behind the `if`. -/
def makeRoom (fresh : Nat → α) (grows : Bool) (arr : Option (List α)) (size position : Nat) :
    Option (List α) × Nat :=
  if position ≥ size then
    (if grows then some (realloc fresh arr (2 * position + 1)) else none, 2 * position)
  else (arr, size)

theorem addToArray_of_room (h : makeRoom fresh grows arr size position = (some block, size'))
    (hpos : position < block.length) : addToArray fresh grows arr size elem position =
      some ((some (block.set position elem), size'), 0) := by
  rw [makeRoom] at h
  simp only [addToArray, h, storeAt_eq_set _ elem hpos, Option.map_some]

theorem addToArray_of_none (h : makeRoom fresh grows arr size position = (none, size')) :
    addToArray fresh grows arr size elem position = some ((none, size'), -1) := by
  rw [makeRoom] at h
  simp only [addToArray, h]

theorem length_realloc (n : Nat) : (realloc fresh arr n).length = n := by
  simp [realloc]

theorem take_realloc {n : Nat} (hn : position ≤ n) (h : position ≤ (arr.getD []).length) :
    (realloc fresh arr n).take position = (arr.getD []).take position := by
  refine List.ext_getElem? fun k => ?_
  rw [List.getElem?_take, List.getElem?_take]
  by_cases hk : k < position
  · have hlen : k < (arr.getD []).length := by omega
    rw [if_pos hk, if_pos hk, realloc, List.getElem?_map, List.getElem?_range (by omega)]
    simp [hlen]
  · rw [if_neg hk, if_neg hk]

/-- There is room for the element, and what is in use is still there; or there is no memory. -/
theorem makeRoom_cases (h : Fits arr size position) :
    (∃ block size', makeRoom fresh grows arr size position = (some block, size') ∧
      position < block.length ∧ size' ≤ block.length ∧
      block.take position = (arr.getD []).take position) ∨
    (grows = false ∧ size ≤ position ∧
      makeRoom fresh grows arr size position = (none, 2 * position)) := by
  obtain ⟨hsize, hused⟩ := h
  by_cases hfull : size ≤ position
  · cases grows with
    | false => exact .inr ⟨rfl, hfull, if_pos hfull⟩
    | true =>
      have hlen : (realloc fresh arr (2 * position + 1)).length = 2 * position + 1 :=
        length_realloc _
      exact .inl ⟨_, _, if_pos hfull, by omega, by omega, take_realloc (by omega) hused⟩
  · left
    cases arr with
    | none => exact absurd hsize (by simp; omega)
    | some block =>
      have hsize' : size ≤ block.length := by simpa using hsize
      exact ⟨block, size, if_neg hfull, by omega, hsize', rfl⟩

/-- The store that both branches come to. -/
theorem take_set (h : position < block.length) :
    (block.set position elem).take (position + 1) = block.take position ++ [elem] := by
  rw [List.take_add_one, List.take_set_of_le (le_refl _), List.getElem?_set_self h]
  rfl

/-- The element goes in behind those in use, or there is no memory. -/
theorem addToArray_cases (h : Fits arr size position) :
    (∃ block size', addToArray fresh grows arr size elem position = some ((some block, size'), 0) ∧
      Fits (some block) size' (position + 1) ∧
      block.take (position + 1) = (arr.getD []).take position ++ [elem]) ∨
    (grows = false ∧ size ≤ position ∧
      addToArray fresh grows arr size elem position = some ((none, 2 * position), -1)) := by
  rcases @makeRoom_cases _ fresh grows _ _ _ h with ⟨block, size', hroom, hpos, hsize, htake⟩ |
    ⟨hgrows, hfull, hroom⟩
  · left
    refine ⟨block.set position elem, size', addToArray_of_room hroom hpos, ⟨?_, ?_⟩, ?_⟩
    · simpa using hsize
    · simpa using hpos
    · rw [take_set hpos, htake]
  · exact .inr ⟨hgrows, hfull, addToArray_of_none hroom⟩

end

/-! ## Any number of calls -/

/-- Every allocation succeeds. -/
def Memory.plenty (freshCpu : Nat → Cpu) (freshProcessor : Nat → Int) : Memory :=
  ⟨fun _ => true, fun _ => true, freshCpu, freshProcessor⟩

/-- A call for each of `elems`, at the positions 0, 1, 2, …, on an array that starts as `NULL` with
    size 0. `mem p` is the allocator as call number `p` finds it. -/
def addProcessors (mem : Nat → Memory) (elems : List Int) : Option (Option (List Int) × Nat) :=
  elems.zipIdx.foldlM (fun s (elem, p) =>
    (addToProcessorsArray (mem p) p s.1 s.2 elem p).map (·.1)) (none, 0)

section

variable {mem : Nat → Memory} {elems : List Int}

theorem addProcessors_snoc (elem : Int) : addProcessors mem (elems ++ [elem]) =
    (addProcessors mem elems).bind fun s =>
      (addToProcessorsArray (mem elems.length) elems.length s.1 s.2 elem elems.length).map
        (·.1) := by
  rw [addProcessors, List.zipIdx_append, List.foldlM_append]
  simp [addProcessors]

/-- Induction on the calls, the last one apart. -/
theorem addProcessors_fits (hmem : ∀ p, (mem p).realloc p = true) :
    ∃ arr size, addProcessors mem elems = some (arr, size) ∧ Fits arr size elems.length ∧
      (arr.getD []).take elems.length = elems := by
  induction elems using List.reverseRecOn with
  | nil => exact ⟨none, 0, rfl, ⟨Nat.le_refl _, Nat.le_refl _⟩, rfl⟩
  | append_singleton elems elem ih =>
    obtain ⟨arr, size, hrun, hfits, htake⟩ := ih
    rcases @addToArray_cases _ (mem elems.length).freshProcessor
      ((mem elems.length).realloc elems.length) _ _ _ elem hfits with
      ⟨block, size', hadd, hfits', htake'⟩ | ⟨hno, -⟩
    · refine ⟨some block, size', ?_, ?_, ?_⟩
      · rw [addProcessors_snoc, hrun, Option.bind_some, addToProcessorsArray, hadd]
        rfl
      · rw [List.length_append]
        exact hfits'
      · rw [htake] at htake'
        rw [List.length_append]
        exact htake'
    · exact absurd hno (by simp [hmem])

end

/-- **The array keeps its elements.** After a call for each of `elems` the first elements are
    `elems`, and the recorded size is allocated. In the call that comes next there is room for the
    element before it is stored. The array has one place more than is recorded, from the `2 *
    position + 1` of the `realloc`; that is on the safe side. -/
theorem processors_kept (mem : Nat → Memory) (hmem : ∀ p, (mem p).realloc p = true)
    (elems : List Int) :
    ∃ arr size, addProcessors mem elems = some (arr, size) ∧ size ≤ (arr.getD []).length ∧
      (arr.getD []).take elems.length = elems ∧
      ∃ block size', makeRoom (mem elems.length).freshProcessor
          ((mem elems.length).realloc elems.length) arr size elems.length = (some block, size') ∧
        elems.length < block.length ∧ size' ≤ block.length ∧
        ∀ elem, addToProcessorsArray (mem elems.length) elems.length arr size elem elems.length =
          some ((some (block.set elems.length elem), size'), 0) := by
  obtain ⟨arr, size, hrun, hfits, htake⟩ := addProcessors_fits hmem
  refine ⟨arr, size, hrun, hfits.recorded, htake, ?_⟩
  rcases @makeRoom_cases _ (mem elems.length).freshProcessor
    ((mem elems.length).realloc elems.length) _ _ _ hfits with
    ⟨block, size', hroom, hpos, hsize, -⟩ | ⟨hno, -⟩
  · exact ⟨block, size', hroom, hpos, hsize, fun _ => addToArray_of_room hroom hpos⟩
  · exact absurd hno (by simp [hmem])

/-- Three processors are in 5 places, of which 4 are recorded. -/
theorem processors_kept_three : ∃ arr size,
    addProcessors (fun _ => .plenty (fun _ => zeroCpu) fun _ => 0) [0, 4, 8] = some (arr, size) ∧
      (arr.getD []).take 3 = [0, 4, 8] :=
  let ⟨arr, size, hrun, _, htake, _⟩ := processors_kept
    (fun _ => .plenty (fun _ => zeroCpu) fun _ => 0) (fun _ => rfl) [0, 4, 8]
  ⟨arr, size, hrun, htake⟩

example : addProcessors (fun _ => .plenty (fun _ => zeroCpu) fun _ => -1) [0, 4, 8] =
    some (some [0, 4, 8, -1, -1], 4) := by decide

end CompTech.Network
