import Mathlib

/-!
# System V semaphore sets

A set maps each semaphore of `σ` to its value; beside it every process has an adjustment for
each semaphore, which `SEM_UNDO` operations record and which is added when the process exits.

`semop` takes its operations in order and is all or nothing: `done` carries the values and
adjustments after the last one, `wait` says that the process has to sleep, and an error leaves
everything as it was. What a completed call has done is a sum: `semop_done` says that each
value moves by the net of the operations on it and each adjustment by the net of the undone
ones, whatever the order; `semop_done_head` keeps the guard of the first operation, which the
sum forgets.

Nothing here knows about processes: which call is made by whom, who sleeps and who wakes up is for
the model that uses these functions.
-/

namespace Lib

variable {σ : Type} [DecidableEq σ]

/-- One operation of a call. -/
structure Sembuf (σ : Type) where
  num : σ
  op : Int
  /-- `IPC_NOWAIT` -/
  nowait : Bool
  /-- `SEM_UNDO` -/
  undo : Bool
  deriving DecidableEq

/-- The largest value of a semaphore, and of an adjustment. -/
def SEMVMX : Int := 32767

/-- The errors of a call. -/
inductive SemErr
  | eagain
  | erange
  | eidrm
  | einval
  deriving DecidableEq

/-- How a call comes out. -/
inductive SemopResult (σ : Type)
  | done (val : σ → Nat) (adj : σ → Int)
  | wait
  | fail (e : SemErr)

/-- Perform the operations in order, from the values `v` and the caller's adjustments `a`. -/
def semop : List (Sembuf σ) → (σ → Nat) → (σ → Int) → SemopResult σ
  | [], v, a => .done v a
  | b :: ops, v, a =>
    let new := (v b.num : Int) + b.op
    let adj := a b.num - b.op
    if (b.op = 0 ∧ v b.num ≠ 0) ∨ new < 0 then
      if b.nowait then .fail .eagain else .wait
    else if SEMVMX < new then
      .fail .erange
    else if b.undo ∧ (SEMVMX < adj ∨ adj < -SEMVMX - 1) then
      .fail .erange
    else
      semop ops (Function.update v b.num new.toNat)
        (if b.undo then Function.update a b.num adj else a)

/-- `semctl (.., SETVAL, n)`. The adjustments for that semaphore are cleared in every process;
    `clearAdj` is what this does to one of them. -/
def setval (v : σ → Nat) (s : σ) (n : Nat) : σ → Nat := Function.update v s n

/-- The adjustments of one process after a `SETVAL`. -/
def clearAdj (a : σ → Int) (s : σ) : σ → Int := Function.update a s 0

/-- What the exit of a process with adjustments `a` leaves. -/
def undoExit (v : σ → Nat) (a : σ → Int) : σ → Nat :=
  fun s => (min SEMVMX (max 0 ((v s : Int) + a s))).toNat

/-! ## What a completed call has done -/

/-- The sum of the operations on `s`. -/
def net (s : σ) : List (Sembuf σ) → Int
  | [] => 0
  | b :: ops => (if s = b.num then b.op else 0) + net s ops

/-- The sum of the operations on `s` that are recorded. -/
def undoNet (s : σ) : List (Sembuf σ) → Int
  | [] => 0
  | b :: ops => (if s = b.num ∧ b.undo then b.op else 0) + undoNet s ops

variable {ops : List (Sembuf σ)} {b : Sembuf σ} {v v' : σ → Nat} {a a' : σ → Int}

/-- A call that is done has passed its first operation. -/
theorem semop_cons_done (h : semop (b :: ops) v a = .done v' a') :
    (b.op = 0 → v b.num = 0) ∧ 0 ≤ (v b.num : Int) + b.op ∧ (v b.num : Int) + b.op ≤ SEMVMX ∧
      semop ops (Function.update v b.num ((v b.num : Int) + b.op).toNat)
        (if b.undo then Function.update a b.num (a b.num - b.op) else a) = .done v' a' := by
  rw [semop] at h
  split at h
  · split at h <;> cases h
  · rename_i hguard
    split at h
    · cases h
    · rename_i hrange
      split at h
      · cases h
      · exact ⟨fun hz => by_contra fun hne => hguard (.inl ⟨hz, hne⟩), by omega, by omega, h⟩

theorem semop_done_head (h : semop (b :: ops) v a = .done v' a') :
    (b.op = 0 → v b.num = 0) ∧ 0 ≤ (v b.num : Int) + b.op :=
  ⟨(semop_cons_done h).1, (semop_cons_done h).2.1⟩

/-- **The sum rule.** Induction on the operations. -/
theorem semop_done (h : semop ops v a = .done v' a') (s : σ) :
    (v' s : Int) = v s + net s ops ∧ a' s = a s - undoNet s ops := by
  induction ops generalizing v a with
  | nil =>
    cases h
    simp [net, undoNet]
  | cons b ops ih =>
    obtain ⟨-, hnew, -, htail⟩ := semop_cons_done h
    obtain ⟨hval, hadj⟩ := ih htail
    rw [hval, hadj]
    simp only [net, undoNet]
    by_cases hs : s = b.num
    · subst hs
      cases hu : b.undo
      · simp only [Function.update_self, Int.toNat_of_nonneg hnew, if_pos, and_false,
          Bool.false_eq_true, if_false]
        constructor <;> omega
      · simp only [Function.update_self, Int.toNat_of_nonneg hnew, if_pos, and_self]
        constructor <;> omega
    · cases hu : b.undo <;> simp [hs]

theorem semop_unchanged {s : σ} (h : semop ops v a = .done v' a') (hnet : net s ops = 0) :
    v' s = v s := by
  have hsum := (semop_done h s).1
  rw [hnet, Int.add_zero] at hsum
  exact Int.ofNat_inj.mp hsum

theorem semop_succ {s : σ} (h : semop ops v a = .done v' a') (hnet : net s ops = 1) :
    v' s = v s + 1 := by
  have hsum := (semop_done h s).1
  rw [hnet] at hsum
  exact_mod_cast hsum

theorem semop_pred {s : σ} (h : semop ops v a = .done v' a') (hnet : net s ops = -1) :
    v' s = v s - 1 ∧ 0 < v s := by
  have hsum := (semop_done h s).1
  rw [hnet] at hsum
  omega

/-- A call on a set that exists does not say that it does not. -/
theorem semop_ne_einval (ops : List (Sembuf σ)) (v : σ → Nat) (a : σ → Int) :
    semop ops v a ≠ .fail .einval := by
  induction ops generalizing v a with
  | nil => rw [semop]; intro h; cases h
  | cons b ops ih =>
    rw [semop]
    split
    · split <;> intro h <;> cases h
    · split
      · intro h; cases h
      · split
        · intro h; cases h
        · exact ih _ _

@[simp] theorem setval_self (v : σ → Nat) (s : σ) (n : Nat) : setval v s n s = n :=
  Function.update_self ..

theorem setval_of_ne {s t : σ} (h : t ≠ s) (v : σ → Nat) (n : Nat) : setval v s n t = v t :=
  Function.update_of_ne h ..

theorem setval_keep {s x : σ} {n : Nat} (h : x ≠ s) : (setval v s n x : Int) = v x + 0 := by
  rw [setval_of_ne h, Int.add_zero]

theorem setval_le_max {s : σ} {n : Nat} (hmax : ∀ x, (v x : Int) ≤ SEMVMX)
    (hn : (n : Int) ≤ SEMVMX) (x : σ) : (setval v s n x : Int) ≤ SEMVMX := by
  by_cases hx : x = s
  · rw [hx, setval_self]
    exact hn
  · rw [setval_of_ne hx]
    exact hmax x

@[simp] theorem clearAdj_self (a : σ → Int) (s : σ) : clearAdj a s s = 0 :=
  Function.update_self ..

theorem clearAdj_of_ne {s t : σ} (h : t ≠ s) (a : σ → Int) : clearAdj a s t = a t :=
  Function.update_of_ne h ..

omit [DecidableEq σ] in
/-- An exit that adjusts nothing of `s`, or takes away what is there. -/
theorem undoExit_of_le {s : σ} (hneg : a s ≤ 0) (hle : -(a s) ≤ v s) (hmax : (v s : Int) ≤ SEMVMX) :
    (undoExit v a s : Int) = v s + a s := by
  unfold undoExit
  omega

omit [DecidableEq σ] in
theorem undoExit_of_eq_zero {s : σ} (h : a s = 0) (hmax : (v s : Int) ≤ SEMVMX) :
    undoExit v a s = v s := by
  unfold undoExit
  omega

/-- The values stay in range. -/
theorem semop_le_max (h : semop ops v a = .done v' a') (hmax : ∀ s, (v s : Int) ≤ SEMVMX) (s : σ) :
    (v' s : Int) ≤ SEMVMX := by
  induction ops generalizing v a with
  | nil => cases h; exact hmax s
  | cons b ops ih =>
    obtain ⟨-, hnew, hrange, htail⟩ := semop_cons_done h
    refine ih htail fun t => ?_
    by_cases ht : t = b.num
    · rw [ht, Function.update_self]
      omega
    · rw [Function.update_of_ne ht]
      exact hmax t

omit [DecidableEq σ] in
theorem undoExit_le_max (v : σ → Nat) (a : σ → Int) (s : σ) : (undoExit v a s : Int) ≤ SEMVMX := by
  unfold undoExit SEMVMX
  omega

/-! ## Calls that cannot fail -/

/-- The values and adjustments the operations touch are far from the bounds. -/
structure Roomy (ops : List (Sembuf σ)) (v : σ → Nat) (a : σ → Int) : Prop where
  small : ∀ b ∈ ops, b.op.natAbs ≤ 2
  val : ∀ b ∈ ops, v b.num + 2 * ops.length ≤ 1000
  adj : ∀ b ∈ ops, (a b.num).natAbs + 2 * ops.length ≤ 1000

/-- In order, each operation finds what it needs. -/
def Passes : List (Sembuf σ) → (σ → Nat) → Prop
  | [], _ => True
  | b :: ops, v => (b.op = 0 → v b.num = 0) ∧ 0 ≤ (v b.num : Int) + b.op ∧
      Passes ops (Function.update v b.num ((v b.num : Int) + b.op).toNat)

theorem Roomy.tail (h : Roomy (b :: ops) v a) :
    Roomy ops (Function.update v b.num ((v b.num : Int) + b.op).toNat)
      (if b.undo then Function.update a b.num (a b.num - b.op) else a) := by
  have hsmall := h.small b List.mem_cons_self
  refine ⟨fun c hc => h.small c (List.mem_cons_of_mem _ hc), fun c hc => ?_, fun c hc => ?_⟩
  · have hval := h.val c (List.mem_cons_of_mem _ hc)
    have hb := h.val b List.mem_cons_self
    rw [List.length_cons] at hval hb
    by_cases hn : c.num = b.num
    · rw [hn, Function.update_self]
      omega
    · rw [Function.update_of_ne hn]
      omega
  · have hadj := h.adj c (List.mem_cons_of_mem _ hc)
    have hb := h.adj b List.mem_cons_self
    rw [List.length_cons] at hadj hb
    cases b.undo with
    | false =>
      rw [if_neg Bool.false_ne_true]
      omega
    | true =>
      rw [if_pos rfl]
      by_cases hn : c.num = b.num
      · rw [hn, Function.update_self]
        omega
      · rw [Function.update_of_ne hn]
        omega

omit [DecidableEq σ] in
theorem Roomy.head (h : Roomy (b :: ops) v a) : ¬SEMVMX < (v b.num : Int) + b.op ∧
    ¬(b.undo = true ∧ (SEMVMX < a b.num - b.op ∨ a b.num - b.op < -SEMVMX - 1)) := by
  have hsmall := h.small b List.mem_cons_self
  have hval := h.val b List.mem_cons_self
  have hadj := h.adj b List.mem_cons_self
  unfold SEMVMX
  omega

omit [DecidableEq σ] in
theorem Roomy.of_small (hop : ∀ b ∈ ops, b.op.natAbs ≤ 2) (hlen : ops.length ≤ 4)
    (hval : ∀ b ∈ ops, v b.num ≤ 2) (hadj : ∀ s, (a s).natAbs ≤ 1) : Roomy ops v a := by
  refine ⟨hop, fun b hb => ?_, fun b _ => ?_⟩
  · have hb' := hval b hb
    omega
  · have hb' := hadj b.num
    omega

/-- **Progress of a call.** With room, a call is done when its operations find what they need. -/
theorem semop_passes (h : Roomy ops v a) (hp : Passes ops v) :
    ∃ v' a', semop ops v a = .done v' a' := by
  induction ops generalizing v a with
  | nil => exact ⟨v, a, rfl⟩
  | cons b ops ih =>
    obtain ⟨hzero, hnew, hrest⟩ := hp
    obtain ⟨hmax, hrange⟩ := h.head
    have hguard : ¬((b.op = 0 ∧ v b.num ≠ 0) ∨ (v b.num : Int) + b.op < 0) := by
      rintro (⟨hz, hne⟩ | hlt)
      · exact hne (hzero hz)
      · omega
    rw [semop, if_neg hguard, if_neg hmax, if_neg hrange]
    exact ih h.tail hrest

theorem semop_or_wait (h : Roomy ops v a) (hwait : ∀ b ∈ ops, b.nowait = false) :
    (∃ v' a', semop ops v a = .done v' a') ∨ semop ops v a = .wait := by
  induction ops generalizing v a with
  | nil => exact .inl ⟨v, a, rfl⟩
  | cons b ops ih =>
    obtain ⟨hmax, hrange⟩ := h.head
    by_cases hguard : (b.op = 0 ∧ v b.num ≠ 0) ∨ (v b.num : Int) + b.op < 0
    · refine .inr ?_
      rw [semop, if_pos hguard, hwait b List.mem_cons_self]
      rfl
    · rw [semop, if_neg hguard, if_neg hmax, if_neg hrange]
      exact ih h.tail fun c hc => hwait c (List.mem_cons_of_mem _ hc)

end Lib
