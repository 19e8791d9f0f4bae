import Mathlib

/-!
# Ring buffers with two run lengths

A ring buffer of this kind keeps, next to its two positions, how many cells can be taken in
one piece from the read position and how many can be filled in one piece at the write
position. `Ring cells w r full empty q` says that the cells hold the queue `q`, in one of two
shapes:

* *flat* — the queue is one stretch, from `w` up to `r`, and the room behind it is what can be
  filled;
* *wrapped* — the queue starts at `w`, runs to the end of the buffer and goes on at its
  beginning up to `r`, and the gap between the two stretches is what can be filled.

The shapes are stated by cutting the buffer into pieces, so that filling or taking a piece is
an equation between lists. `Ring.push` and `Ring.pop` are the two operations, with the new
positions and lengths as a program computes them; `Ring.peek` is what a take sees.

The same ring cell by cell: the queue lies in the cells from `w` on, going round
(`Ring.cell`), and each of the two lengths is that of the longest stretch of occupied, or of
free, cells up to the end of the buffer (`Ring.stretch_full`, `Ring.stretch_empty`).
-/

namespace Lib

variable {α : Type*}

/-- The two shapes. The write position `r` is at the end of the queue in both, and never behind the
    last cell. -/
inductive Ring : List α → Nat → Nat → Nat → Nat → List α → Prop
  | flat (a q b : List α) : b ≠ [] →
      Ring (a ++ q ++ b) a.length (a.length + q.length) q.length b.length q
  | wrapped (q₂ g q₁ : List α) : q₁ ≠ [] →
      Ring (q₂ ++ g ++ q₁) (q₂.length + g.length) q₂.length q₁.length g.length (q₁ ++ q₂)

/-- Store the cells `d` from position `r` on. -/
def patch (cells : List α) (r : Nat) (d : List α) : List α :=
  cells.take r ++ d ++ cells.drop (r + d.length)

theorem length_patch {cells d : List α} {r : Nat} (h : r + d.length ≤ cells.length) :
    (patch cells r d).length = cells.length := by
  simp only [patch, List.length_append, List.length_take, List.length_drop]
  omega

/-- Storing over a piece of the same length replaces that piece. -/
theorem patch_append {a x b d : List α} (h : x.length = d.length) :
    patch (a ++ x ++ b) a.length d = a ++ d ++ b := by
  have htake : (a ++ x ++ b).take a.length = a := by
    rw [List.append_assoc, List.take_left']
    rfl
  have hdrop : (a ++ x ++ b).drop (a.length + d.length) = b := by
    rw [← h, ← List.length_append, List.drop_left']
    rfl
  rw [patch, htake, hdrop]

namespace Ring

variable {cells q d : List α} {w r full empty k : Nat}

theorem init (h : cells ≠ []) : Ring cells 0 0 0 cells.length ([] : List α) := by
  have hflat := Ring.flat [] [] cells h
  simpa using hflat

theorem room (h : Ring cells w r full empty q) : r + empty ≤ cells.length := by
  cases h with
  | flat => simp only [List.length_append]; omega
  | wrapped => simp only [List.length_append]; omega

theorem full_le (h : Ring cells w r full empty q) : w + full ≤ cells.length := by
  cases h with
  | flat => simp only [List.length_append]; omega
  | wrapped => simp only [List.length_append]; omega

/-- The cells at the read position are the first of the queue. -/
theorem peek (h : Ring cells w r full empty q) (hk : k ≤ full) :
    k ≤ q.length ∧ (cells.drop w).take k = q.take k := by
  cases h with
  | flat a q b =>
    refine ⟨hk, ?_⟩
    rw [List.append_assoc, List.drop_left', List.take_append_of_le_length hk]
    rfl
  | wrapped q₂ g q₁ =>
    refine ⟨by rw [List.length_append]; omega, ?_⟩
    rw [← List.length_append, List.drop_left', List.take_append_of_le_length hk]
    rfl

/-- Filling `d` at the write position appends `d` to the queue. -/
theorem push (h : Ring cells w r full empty q) (hd : d ≠ []) (hle : d.length ≤ empty) :
    Ring (patch cells r d) w (if r + d.length = cells.length then 0 else r + d.length)
      (if w ≤ r then full + d.length else full)
      (if r + d.length = cells.length then w else empty - d.length) (q ++ d) := by
  have hpos : 0 < d.length := List.length_pos_iff.mpr hd
  cases h with
  | flat a q b =>
    have hb : b.take d.length ++ b.drop d.length = b := List.take_append_drop _ _
    have hx : (b.take d.length).length = d.length := by rw [List.length_take]; omega
    have hcells : patch (a ++ q ++ b) (a.length + q.length) d =
        a ++ (q ++ d) ++ b.drop d.length := by
      have hp := patch_append (a := a ++ q) (b := b.drop d.length) hx
      rw [List.append_assoc, hb, List.length_append] at hp
      rw [hp]
      simp only [List.append_assoc]
    rw [hcells, if_pos (Nat.le_add_right _ _)]
    by_cases hend : a.length + q.length + d.length = (a ++ q ++ b).length
    · have hnil : b.drop d.length = [] := by
        simp only [List.length_append] at hend
        exact List.drop_eq_nil_of_le (by omega)
      rw [if_pos hend, if_pos hend, hnil, List.append_nil, ← List.length_append]
      have hw := Ring.wrapped [] a (q ++ d) (by simp [hd])
      simpa using hw
    · have hne : b.drop d.length ≠ [] := by
        simp only [List.length_append] at hend
        rw [Ne, List.drop_eq_nil_iff]
        omega
      rw [if_neg hend, if_neg hend, Nat.add_assoc, ← List.length_append, ← List.length_drop]
      exact Ring.flat a (q ++ d) _ hne
  | wrapped q₂ g q₁ hne =>
    have hg : g.take d.length ++ g.drop d.length = g := List.take_append_drop _ _
    have hx : (g.take d.length).length = d.length := by rw [List.length_take]; omega
    have hlen : (g.drop d.length).length = g.length - d.length := List.length_drop
    have hpos₁ : 0 < q₁.length := List.length_pos_iff.mpr hne
    have hcells : patch (q₂ ++ g ++ q₁) q₂.length d =
        (q₂ ++ d) ++ g.drop d.length ++ q₁ := by
      have hp := patch_append (a := q₂) (b := g.drop d.length ++ q₁) hx
      rw [List.append_assoc, ← List.append_assoc _ (g.drop d.length), hg,
        ← List.append_assoc] at hp
      rw [hp]
      simp only [List.append_assoc]
    have hend : ¬ q₂.length + d.length = (q₂ ++ g ++ q₁).length := by
      simp only [List.length_append]
      omega
    have hle' : ¬ q₂.length + g.length ≤ q₂.length := by omega
    rw [hcells, if_neg hend, if_neg hend, if_neg hle', ← hlen, List.append_assoc q₁]
    have hw := Ring.wrapped (q₂ ++ d) (g.drop d.length) q₁ hne
    rwa [show (q₂ ++ d).length + (g.drop d.length).length = q₂.length + g.length by
      rw [List.length_append, hlen]; omega, List.length_append] at hw

/-- Taking `k` cells at the read position drops them from the queue. -/
theorem pop (h : Ring cells w r full empty q) (hk : 1 ≤ k) (hle : k ≤ full) :
    Ring cells (if w + k = cells.length then 0 else w + k) r
      (if w + k = cells.length then r else full - k)
      (if r ≤ w then empty + k else empty) (q.drop k) := by
  cases h with
  | flat a q b hne =>
    have hpos : 0 < b.length := List.length_pos_iff.mpr hne
    have hlen : (q.take k).length = k := by rw [List.length_take]; omega
    have hend : ¬ a.length + k = (a ++ q ++ b).length := by
      simp only [List.length_append]
      omega
    rw [if_neg hend, if_neg hend, if_neg (by omega)]
    have hf := Ring.flat (a ++ q.take k) (q.drop k) b hne
    rwa [List.append_assoc a, List.take_append_drop, List.length_append, hlen, List.length_drop,
      show a.length + k + (q.length - k) = a.length + q.length by omega] at hf
  | wrapped q₂ g q₁ hne =>
    have hlen : (q₁.take k).length = k := by rw [List.length_take]; omega
    have htd : q₁.take k ++ q₁.drop k = q₁ := List.take_append_drop _ _
    rw [List.drop_append_of_le_length hle, if_pos (Nat.le_add_right _ _)]
    by_cases hend : q₂.length + g.length + k = (q₂ ++ g ++ q₁).length
    · have hkq : k = q₁.length := by
        simp only [List.length_append] at hend
        omega
      rw [if_pos hend, if_pos hend, hkq, List.drop_length, List.nil_append]
      have hf := Ring.flat [] q₂ (g ++ q₁) (by simp [hne])
      simpa using hf
    · rw [if_neg hend, if_neg hend]
      have hlt : k < q₁.length := by
        simp only [List.length_append] at hend
        omega
      have hne' : q₁.drop k ≠ [] := by
        rw [Ne, List.drop_eq_nil_iff]
        omega
      have hw := Ring.wrapped q₂ (g ++ q₁.take k) (q₁.drop k) hne'
      rwa [← List.append_assoc q₂, List.append_assoc (q₂ ++ g), htd, List.length_append, hlen,
        List.length_drop, ← Nat.add_assoc] at hw

end Ring

/-! ## Cell by cell

The same facts without the shapes: which cells are occupied follows from the position and the length
of the queue alone, and the two run lengths are functions of these. A program that keeps the four
numbers in this way keeps no more than it could compute. -/

/-- Cell `i` of `n` is one of the `m` cells from `w` on, going round. -/
def occupied (n w m i : Nat) : Bool := decide ((i + n - w) % n < m)

/-- How many cells from `i` on, up to the end of a buffer of `n`, have `p`. -/
def stretch (p : Nat → Bool) (n i : Nat) : Nat := ((List.range' i (n - i)).takeWhile p).length

theorem occupied_of_le {n w m i : Nat} (hw : w ≤ i) (hi : i < n) :
    occupied n w m i = decide (i - w < m) := by
  have hmod : (i + n - w) % n = i - w := by
    rw [show i + n - w = (i - w) + n by omega, Nat.add_mod_right, Nat.mod_eq_of_lt (by omega)]
  rw [occupied, hmod]

theorem occupied_of_lt {n w m i : Nat} (hi : i < w) (hw : w ≤ n) :
    occupied n w m i = decide (i + n - w < m) := by
  rw [occupied, Nat.mod_eq_of_lt (by omega)]

theorem stretch_eq {p : Nat → Bool} {n i m : Nat} (hle : i + m ≤ n)
    (hp : ∀ j, i ≤ j → j < i + m → p j = true) (hend : i + m < n → p (i + m) = false) :
    stretch p n i = m := by
  have hsplit : List.range' i (n - i) = List.range' i m ++ List.range' (i + m) (n - (i + m)) := by
    rw [List.range'_append_1]
    congr 1
    omega
  have hall : ∀ j ∈ List.range' i m, p j = true := fun j hj => by
    rw [List.mem_range'_1] at hj
    exact hp j hj.1 hj.2
  have hrest : (List.range' (i + m) (n - (i + m))).takeWhile p = [] := by
    rcases Nat.eq_or_lt_of_le hle with heq | hlt
    · rw [heq, Nat.sub_self]
      rfl
    · rw [show n - (i + m) = (n - (i + m) - 1) + 1 by omega, List.range'_succ,
        List.takeWhile_cons_of_neg (by rw [hend hlt]; exact Bool.false_ne_true)]
  rw [stretch, hsplit, List.takeWhile_append_of_pos hall, hrest, List.append_nil,
    List.length_range']

namespace Ring

variable {cells q : List α} {w r full empty : Nat}

theorem write_lt (h : Ring cells w r full empty q) : w < cells.length := by
  cases h with
  | flat a q b hne =>
    have hpos := List.length_pos_iff.mpr hne
    simp only [List.length_append]
    omega
  | wrapped q₂ g q₁ hne =>
    have hpos := List.length_pos_iff.mpr hne
    simp only [List.length_append]
    omega

theorem read_lt (h : Ring cells w r full empty q) : r < cells.length := by
  cases h with
  | flat a q b hne =>
    have hpos := List.length_pos_iff.mpr hne
    simp only [List.length_append]
    omega
  | wrapped q₂ g q₁ hne =>
    have hpos := List.length_pos_iff.mpr hne
    simp only [List.length_append]
    omega

theorem length_le (h : Ring cells w r full empty q) : q.length ≤ cells.length := by
  cases h with
  | flat => simp only [List.length_append]; omega
  | wrapped => simp only [List.length_append]; omega

/-- Something can be taken or something can be filled. -/
theorem pos (h : Ring cells w r full empty q) : ¬(full = 0 ∧ empty = 0) := by
  cases h with
  | flat a q b hne =>
    have hpos := List.length_pos_iff.mpr hne
    omega
  | wrapped q₂ g q₁ hne =>
    have hpos := List.length_pos_iff.mpr hne
    omega

/-- The queue lies in the cells from the read position on, going round. -/
theorem cell {k : Nat} (h : Ring cells w r full empty q) (hk : k < q.length) :
    cells[(w + k) % cells.length]? = q[k]? := by
  cases h with
  | flat a q b hne =>
    have hmod : (a.length + k) % (a ++ q ++ b).length = a.length + k := by
      refine Nat.mod_eq_of_lt ?_
      simp only [List.length_append]
      omega
    rw [hmod, List.append_assoc, List.getElem?_append_right (Nat.le_add_right _ _),
      Nat.add_sub_cancel_left, List.getElem?_append_left hk]
  | wrapped q₂ g q₁ hne =>
    have hlen : (q₂ ++ g ++ q₁).length = q₂.length + g.length + q₁.length := by
      rw [List.length_append, List.length_append]
    rw [List.length_append] at hk
    rcases Nat.lt_or_ge k q₁.length with hlt | hge
    · have hgap : q₂.length + g.length = (q₂ ++ g).length := List.length_append.symm
      rw [Nat.mod_eq_of_lt (by omega), hgap, List.getElem?_append_right (Nat.le_add_right _ _),
        Nat.add_sub_cancel_left, List.getElem?_append_left hlt]
    · have hmod : (q₂.length + g.length + k) % (q₂ ++ g ++ q₁).length = k - q₁.length := by
        rw [show q₂.length + g.length + k = (k - q₁.length) + (q₂ ++ g ++ q₁).length by omega,
          Nat.add_mod_right]
        exact Nat.mod_eq_of_lt (by omega)
      rw [hmod, List.append_assoc, List.getElem?_append_left (by omega),
        List.getElem?_append_right hge]

theorem stretch_full (h : Ring cells w r full empty q) :
    stretch (occupied cells.length w q.length) cells.length w = full := by
  cases h with
  | flat a q b hne =>
    have hpos := List.length_pos_iff.mpr hne
    have hlen : (a ++ q ++ b).length = a.length + q.length + b.length := by
      rw [List.length_append, List.length_append]
    refine stretch_eq (by omega) (fun j hlo hhi => ?_) fun hlt => ?_
    · rw [occupied_of_le hlo (by omega), decide_eq_true_iff]
      omega
    · rw [occupied_of_le (Nat.le_add_right _ _) hlt, decide_eq_false_iff_not]
      omega
  | wrapped q₂ g q₁ hne =>
    have hlen : (q₂ ++ g ++ q₁).length = q₂.length + g.length + q₁.length := by
      rw [List.length_append, List.length_append]
    refine stretch_eq (by omega) (fun j hlo hhi => ?_) fun hlt => by omega
    rw [occupied_of_le hlo (by omega), decide_eq_true_iff, List.length_append]
    omega

theorem stretch_empty (h : Ring cells w r full empty q) :
    stretch (fun i => !occupied cells.length w q.length i) cells.length r = empty := by
  cases h with
  | flat a q b hne =>
    have hlen : (a ++ q ++ b).length = a.length + q.length + b.length := by
      rw [List.length_append, List.length_append]
    refine stretch_eq (by omega) (fun j hlo hhi => ?_) fun hlt => by omega
    rw [occupied_of_le (by omega) (by omega), Bool.not_eq_true', decide_eq_false_iff_not]
    omega
  | wrapped q₂ g q₁ hne =>
    have hpos := List.length_pos_iff.mpr hne
    have hlen : (q₂ ++ g ++ q₁).length = q₂.length + g.length + q₁.length := by
      rw [List.length_append, List.length_append]
    have hq : (q₁ ++ q₂).length = q₁.length + q₂.length := List.length_append
    refine stretch_eq (by omega) (fun j hlo hhi => ?_) fun hlt => ?_
    · rw [occupied_of_lt hhi (by omega), Bool.not_eq_true', decide_eq_false_iff_not]
      omega
    · rw [occupied_of_le (Nat.le_refl _) hlt, Bool.not_eq_false', decide_eq_true_iff]
      omega

end Ring

end Lib
