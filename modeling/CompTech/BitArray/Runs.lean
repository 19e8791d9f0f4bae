import CompTech.Lib.Run
import CompTech.BitArray.Loads

/-!
# The representation invariant over whole runs

An array is used by one call after another: `Call` is the interface, `Call.apply` what a call
leaves behind, and a run is a `Lib.Run` of that machine. `InScope` is what the caller has to
respect — indices and sizes up to 2^63, regions inside the array, allocations that succeed —
and nothing else: an index may be out of range, so that the call grows the array, and the
shifted single-bit mask may have any value at all.

Each step runs the function it names. The one exception is a find from the end of an array that
fills its capacity (`Call.FromTheEnd`): its first load lies behind the words that are counted, and
may lie behind the block. The find functions write nothing, so whatever that load brings the array
is the one they were given, and the run goes on with it; but `repInv_of_run` does not call that
step defined. Every other call in scope is.

`RunInv.apply` is the step and `repInv_of_run` the result over runs.
-/

namespace CompTech.BitArray

open MyBitArray

/-- The interface of `bit_array.h`: each function but construction, destruction and the dump, with
    its arguments. The callback of `bit_array_foreach` comes with the type of its data. -/
inductive Call : Type 1
  | setBit (index : Word)
  | clearBit (index : Word)
  | getBit (index : Word)
  | toggleBit (index : Word)
  | setRegion (start len : Word)
  | clearRegion (start len : Word)
  | toggleRegion (start len : Word)
  | findSetBit (start : Word)
  | findClearBit (start : Word)
  | foreach {δ : Type} (func : Nat → δ → Int × δ) (data : δ)
  | length

/-- A find from `num_of_bits` on an array that fills its capacity. -/
def Call.FromTheEnd (a : MyBitArray) : Call → Prop
  | .findSetBit start | .findClearBit start =>
      start = a.numOfBits ∧ a.numOfBits.toNat = 64 * a.capacity.toNat
  | _ => False

instance (a : MyBitArray) : (c : Call) → Decidable (c.FromTheEnd a)
  | .findSetBit _ | .findClearBit _ => inferInstanceAs (Decidable (_ ∧ _))
  | .setBit _ | .clearBit _ | .getBit _ | .toggleBit _ | .setRegion _ _ | .clearRegion _ _
  | .toggleRegion _ _ | .foreach _ _ | .length => inferInstanceAs (Decidable False)

/-- One call, with what the world answers during it. -/
structure Event : Type 1 where
  call : Call
  -- the value of `1 << k`
  mask : Word → Word
  heap : Heap

/-- A shifted literal whose value is whatever the mask says. -/
def anyMask (mask : Word → Word) : Word → Option Word := fun k => some (mask k)

/-- The array a call leaves; `none` is undefined behaviour. -/
def Event.apply (a : MyBitArray) (e : Event) : Option MyBitArray :=
  let shl := anyMask e.mask
  match e.call with
  | .setBit index => bitArraySetBit shl e.heap a index
  | .clearBit index => bitArrayClearBit shl e.heap a index
  | .getBit index => (bitArrayGetBit shl e.heap a index).map (·.2)
  | .toggleBit index => bitArrayToggleBit shl e.heap a index
  | .setRegion start len => bitArraySetRegion a start len
  | .clearRegion start len => bitArrayClearRegion a start len
  | .toggleRegion start len => bitArrayToggleRegion a start len
  -- wherever the load from the end looks, nothing is written
  | .findSetBit start =>
    if (Call.findSetBit start).FromTheEnd a then some a
    else (bitArrayFindSetBit a start).map fun _ => a
  | .findClearBit start =>
    if (Call.findClearBit start).FromTheEnd a then some a
    else (bitArrayFindClearBit a start).map fun _ => a
  | .length => some a
  | .foreach func data => (bitArrayForeach shl e.heap func a data).map (·.2.2)

/-- What the caller answers for: indices up to 2^63 and regions inside the array. -/
def Call.InScope (a : MyBitArray) : Call → Prop
  | .setBit index | .clearBit index | .getBit index | .toggleBit index => index.toNat ≤ 2 ^ 63
  | .setRegion start len | .clearRegion start len | .toggleRegion start len =>
      start.toNat + len.toNat ≤ a.numOfBits.toNat
  | .findSetBit _ | .findClearBit _ | .foreach _ _ | .length => True

/-- With every allocation succeeding. -/
def InScope (a : MyBitArray) (e : Event) : Prop :=
  e.heap.succeeds = true ∧ e.call.InScope a

/-! ## One call -/

theorem anyMask_eq (mask : Word → Word) (k : Word) : anyMask mask k = some (mask k) := rfl

section Calls

variable {h : Heap} {a : MyBitArray} {i : Word} {m : Word → Word}

/-- A call keeps the invariant and does not shorten the array. -/
def Kept (a b : MyBitArray) : Prop := RunInv b ∧ a.numOfBits.toNat ≤ b.numOfBits.toNat

theorem Kept.of_framed {b : MyBitArray} (ha : RunInv a) (hf : Framed a b) : Kept a b :=
  ⟨ha.framed hf, by rw [hf.numOfBits]⟩

/-- Storing a word that is in use frames the rest. -/
theorem framed_set (ha : RunInv a) (hi : i < a.numOfBits) (w : Word) :
    Framed a { a with buffBits := a.buffBits.set (i.toNat / 64) w } := by
  refine ⟨rfl, rfl, rfl, List.length_set, fun j hj => List.getElem?_set_ne ?_⟩
  have hlt := ha.toWordsOk.index_lt hi
  omega

/-- The three writing calls, for any mask: a store in range, a growth out of range. -/
theorem Kept.updateBit (op : Word → Word → Word) (ha : RunInv a) (hs : h.succeeds = true)
    (hi : i.toNat ≤ 2 ^ 63) :
    ∃ b, bitArrayUpdateBit op (anyMask m) h a i = some b ∧ Kept a b := by
  by_cases hin : i < a.numOfBits
  · exact ⟨_, bitArrayUpdateBit_eq ha.toWordsOk hin (anyMask_eq _ _),
      .of_framed ha (framed_set ha hin _)⟩
  · have hge : a.numOfBits.toNat ≤ i.toNat := Nat.le_of_not_lt hin
    obtain ⟨b, hb, hinv, hbits⟩ := bitArrayResize_grow ha hs hge hi
    refine ⟨b, ?_, hinv, by rw [hbits]; exact hge⟩
    rw [bitArrayUpdateBit, if_pos (BitVec.not_lt.mp hin), hb]
    rfl

theorem Kept.getBit (ha : RunInv a) (hs : h.succeeds = true) (hi : i.toNat ≤ 2 ^ 63) :
    ∃ r, bitArrayGetBit (anyMask m) h a i = some r ∧ Kept a r.2 := by
  by_cases hin : i < a.numOfBits
  · exact ⟨_, bitArrayGetBit_eq ha.toWordsOk hin (anyMask_eq _ _), ha, Nat.le_refl _⟩
  · have hge : a.numOfBits.toNat ≤ i.toNat := Nat.le_of_not_lt hin
    obtain ⟨b, hb, hinv, hbits⟩ := bitArrayResize_grow ha hs hge hi
    refine ⟨(0, b), ?_, hinv, by rw [hbits]; exact hge⟩
    rw [bitArrayGetBit, if_pos (BitVec.not_lt.mp hin), hb]
    rfl

theorem Kept.region (only first : Word → Word → Word) (between : Word → Word)
    (last : Word → Word → Word) {start len : Word} (ha : RunInv a)
    (hle : start.toNat + len.toNat ≤ a.numOfBits.toNat) :
    ∃ b, bitArrayRegion only first between last a start len = some b ∧ Kept a b := by
  obtain ⟨b, hb, hf⟩ := bitArrayRegion_framed only first between last ha.toWordsOk hle
  exact ⟨b, hb, .of_framed ha hf⟩

theorem foreachRound_eq {δ : Type} (func : Nat → δ → Int × δ) (ha : RunInv a) (r : Int) (d : δ)
    {i : Nat} (hi : i < a.numOfBits.toNat) :
    ∃ r' d', foreachRound (anyMask m) h func (r, d, a) i = some (r', d', a) := by
  have hbits := a.numOfBits.isLt
  have hlt : BitVec.ofNat 64 i < a.numOfBits := by
    show (BitVec.ofNat 64 i).toNat < a.numOfBits.toNat
    rw [BitVec.toNat_ofNat]
    omega
  exact ⟨_, _, by rw [foreachRound, bitArrayGetBit_eq ha.toWordsOk hlt (anyMask_eq _ _)]; rfl⟩

/-- The walk over the array: every index it reads is in range, so it comes back with the array
    it was given. Induction on the indices still to visit. -/
theorem bitArrayForeach_array {δ : Type} (func : Nat → δ → Int × δ) (data : δ)
    (ha : RunInv a) :
    ∃ r d, bitArrayForeach (anyMask m) h func a data = some (r, d, a) := by
  suffices hloop : ∀ (l : List Nat), (∀ i ∈ l, i < a.numOfBits.toNat) → ∀ (r : Int) (d : δ),
      ∃ r' d', l.foldlM (foreachRound (anyMask m) h func) (r, d, a) =
        some (r', d', a) from
    hloop _ (fun i hi => List.mem_range.mp hi) 0 data
  intro l
  induction l with
  | nil => intro _ r d; exact ⟨r, d, rfl⟩
  | cons i l ih =>
    intro hl r d
    obtain ⟨r', d', hround⟩ := foreachRound_eq (h := h) (m := m) func ha r d
      (hl i List.mem_cons_self)
    rw [List.foldlM_cons, hround]
    exact ih (fun j hj => hl j (List.mem_cons_of_mem _ hj)) r' d'

/-- A find writes nothing, and but for one start it comes to an answer. -/
theorem Kept.find {answer : Option (Option Word)} {c : Call} (ha : RunInv a)
    (hanswer : ¬c.FromTheEnd a → answer.isSome = true) :
    ∃ b, (if c.FromTheEnd a then some a else answer.map fun _ => a) = some b ∧ Kept a b := by
  refine ⟨a, ?_, ha, Nat.le_refl _⟩
  by_cases hend : c.FromTheEnd a
  · exact if_pos hend
  · obtain ⟨r, hr⟩ := Option.isSome_iff_exists.mp (hanswer hend)
    rw [if_neg hend, hr, Option.map_some]

end Calls

/-- **One call.** In scope, from an array that meets the invariant, a call
    leaves an array that meets the invariant and is no shorter. -/
theorem MyBitArray.RunInv.apply {a : MyBitArray} (ha : RunInv a) (e : Event) (he : InScope a e) :
    ∃ b, e.apply a = some b ∧ Kept a b := by
  obtain ⟨call, mask, heap⟩ := e
  obtain ⟨hs, hc⟩ := he
  have hself : Kept a a := ⟨ha, Nat.le_refl _⟩
  cases call with
  | setBit | clearBit | toggleBit => exact Kept.updateBit _ ha hs hc
  | getBit index =>
    obtain ⟨r, hr, hk⟩ := Kept.getBit (i := index) ha hs hc
    exact ⟨r.2, congrArg (Option.map Prod.snd) hr, hk⟩
  | setRegion start len =>
    show ∃ b, bitArraySetRegion a start len = some b ∧ Kept a b
    exact Kept.region _ _ _ _ ha hc
  | clearRegion start len =>
    show ∃ b, bitArrayClearRegion a start len = some b ∧ Kept a b
    exact Kept.region _ _ _ _ ha hc
  | toggleRegion start len =>
    show ∃ b, bitArrayToggleRegion a start len = some b ∧ Kept a b
    exact Kept.region _ _ _ _ ha hc
  | findSetBit start => exact Kept.find ha fun hend => find_isSome _ _ ha hend
  | findClearBit start => exact Kept.find ha fun hend => find_isSome _ _ ha hend
  | length => exact ⟨a, rfl, hself⟩
  | foreach func data =>
    obtain ⟨r, d, hr⟩ := bitArrayForeach_array (h := heap) (m := mask) func data ha
    refine ⟨a, ?_, hself⟩
    show (bitArrayForeach (anyMask mask) heap func a data).map (·.2.2) = some a
    rw [hr]
    rfl

/-! ## Runs -/

theorem MyBitArray.RunInv.run {a b : MyBitArray} {es : List Event} (ha : RunInv a)
    (hr : Lib.Run Event.apply InScope a es b) : RunInv b := by
  refine hr.invariant ha fun t e u ht hok hst => ?_
  obtain ⟨u', hu', hk⟩ := ht.apply e hok
  rw [hst, Option.some.injEq] at hu'
  exact hu' ▸ hk.1

theorem numOfBits_mono {a b : MyBitArray} {es : List Event} (ha : RunInv a)
    (hr : Lib.Run Event.apply InScope a es b) : a.numOfBits.toNat ≤ b.numOfBits.toNat := by
  refine hr.rel (R := fun a b => a.numOfBits.toNat ≤ b.numOfBits.toNat)
    (fun _ => Nat.le_refl _) (fun _ _ _ => Nat.le_trans) ha fun t e u ht hok hst => ?_
  obtain ⟨u', hu', hk⟩ := ht.apply e hok
  rw [hst, Option.some.injEq] at hu'
  exact hu' ▸ hk

/-- **The representation invariant over whole runs.** Whatever calls in scope are made on a
    constructed array, every point of the run meets the invariant, the next call in scope is defined
    unless it is a find from the end, and from one point to a later one `num_of_bits` does not
    decrease. Nothing is assumed of what `1 << k` gives, so the invariant does not depend on the
    defect of the single-bit calls. -/
theorem repInv_of_run {n : Word} (hn : n.toNat ≤ 2 ^ 63) {heap : Heap} {a₀ : MyBitArray}
    (h₀ : bitArrayConstruct true heap n = some a₀) {es : List Event} {a : MyBitArray}
    (hr : Lib.Run Event.apply InScope a₀ es a) :
    RepInv a ∧ (∀ e, InScope a e → ¬e.call.FromTheEnd a → ∃ b, e.apply a = some b) ∧
      ∀ es' b, Lib.Run Event.apply InScope a es' b →
        a.numOfBits.toNat ≤ b.numOfBits.toNat := by
  have hinv : RunInv a := (RunInv.init hn h₀).run hr
  refine ⟨hinv.toRepInv, fun e he _ => ?_, fun es' b hb => numOfBits_mono hinv hb⟩
  obtain ⟨b, hb, _⟩ := hinv.apply e he
  exact ⟨b, hb⟩

/-- A run that grows a fresh array past its capacity and then sets a region of it. -/
def growRun : List Event :=
  [⟨.setBit 200, fun _ => 7, quietHeap⟩, ⟨.setRegion 60 80, fun _ => 0, quietHeap⟩]

/-- The array of 64 bits after it has grown to 200, with these words at its beginning. -/
def grown (first : List Word) : MyBitArray :=
  ⟨200, 4, 4, first ++ List.replicate (32 - first.length) 0⟩

theorem run_growRun : Lib.Run Event.apply InScope fresh64 growRun
    (grown [0xF, 0xFFFFFFFFFFFFFFFF, 0xFFF0000000000000]) := by
  have hgrow : Event.apply fresh64 ⟨.setBit 200, fun _ => 7, quietHeap⟩ = some (grown []) := by
    decide
  have hset : Event.apply (grown []) ⟨.setRegion 60 80, fun _ => 0, quietHeap⟩ =
      some (grown [0xF, 0xFFFFFFFFFFFFFFFF, 0xFFF0000000000000]) := by decide
  have hindex : (200#64).toNat ≤ 2 ^ 63 := by decide
  have hregion : (60#64).toNat + (80#64).toNat ≤ (grown []).numOfBits.toNat := by decide
  exact .cons ⟨rfl, hindex⟩ hgrow (.cons ⟨rfl, hregion⟩ hset .nil)

theorem repInv_growRun : RepInv (grown [0xF, 0xFFFFFFFFFFFFFFFF, 0xFFF0000000000000]) :=
  (repInv_of_run (by decide) (show bitArrayConstruct true quietHeap 64 = some fresh64 by decide)
    run_growRun).1

end CompTech.BitArray
