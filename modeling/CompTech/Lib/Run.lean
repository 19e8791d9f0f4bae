import Mathlib

/-!
# Runs of an event-driven machine

A machine is a partial step function `σ → ε → Option σ`: `none` says the event cannot
happen in that state. Every system of this development — a library object called with one
request after another, or several processes interleaved — is such a machine, and every
result about it is a result about its *runs*.

`Run step ok s es t` says the events `es` lead from `s` to `t` and that `ok` held of the
state and the event **before** every step. The side condition is where a scope or a
scheduling assumption goes: with `ok` always true the run is an arbitrary one, and a result
that needs an assumption names it in the run instead of in the machine.

`Run.invariant` is the one induction over runs; a property of a system is two goals, the
start and one step. `exec` is the executable side: it evaluates a finite list of events and
`Run.of_exec` turns its answer into a run.
-/

namespace Lib

variable {σ ε : Type*}

/-- The events `es`, taken one after another, lead from `s` to `t`; `ok` holds before every
    step. The last event is at the end of the list. -/
inductive Run (step : σ → ε → Option σ) (ok : σ → ε → Prop) (s : σ) : List ε → σ → Prop
  | nil : Run step ok s [] s
  | snoc {es : List ε} {e : ε} {t u : σ} :
      Run step ok s es t → ok t e → step t e = some u → Run step ok s (es ++ [e]) u

/-- No condition on the steps: the run is arbitrary. -/
def Always : σ → ε → Prop := fun _ _ => True

instance (s : σ) (e : ε) : Decidable (Always s e) := inferInstanceAs (Decidable True)

namespace Run

variable {step : σ → ε → Option σ} {ok ok' : σ → ε → Prop} {s t u : σ} {es fs : List ε}

/-- **The run rule.** What holds at the start and is kept by every admitted step holds of
    every state a run reaches. -/
theorem invariant {Inv : σ → Prop} (hs : Inv s)
    (hstep : ∀ t e u, Inv t → ok t e → step t e = some u → Inv u)
    (h : Run step ok s es t) : Inv t := by
  induction h with
  | nil => exact hs
  | snoc _ hok hst ih => exact hstep _ _ _ ih hok hst

/-- A run that meets a stronger condition meets a weaker one. -/
theorem mono (hok : ∀ t e, ok t e → ok' t e) (h : Run step ok s es t) :
    Run step ok' s es t := by
  induction h with
  | nil => exact .nil
  | snoc _ he hst ih => exact .snoc ih (hok _ _ he) hst

theorem append (h : Run step ok s es t) (h' : Run step ok t fs u) :
    Run step ok s (es ++ fs) u := by
  induction h' with
  | nil => simpa using h
  | snoc _ hok hst ih => rw [← List.append_assoc]; exact .snoc ih hok hst

theorem cons {e : ε} (hok : ok s e) (hst : step s e = some t) (h : Run step ok t fs u) :
    Run step ok s (e :: fs) u := by
  have hone : Run step ok s [e] t := .snoc .nil hok hst
  exact hone.append h

/-- A transitive relation that contains every step relates the two ends of a run. -/
theorem rel {R : σ → σ → Prop} (hrefl : ∀ a, R a a) (htrans : ∀ a b c, R a b → R b c → R a c)
    {Inv : σ → Prop} (hs : Inv s)
    (hstep : ∀ t e u, Inv t → ok t e → step t e = some u → Inv u ∧ R t u)
    (h : Run step ok s es t) : R s t := by
  suffices hboth : Inv t ∧ R s t from hboth.2
  induction h with
  | nil => exact ⟨hs, hrefl _⟩
  | snoc _ hok hst ih =>
    obtain ⟨hi, hr⟩ := hstep _ _ _ ih.1 hok hst
    exact ⟨hi, htrans _ _ _ ih.2 hr⟩

/-- A measure that every admitted step decreases bounds the length of every run. -/
theorem length_le {μ : σ → Nat} {Inv : σ → Prop} (hs : Inv s)
    (hstep : ∀ t e u, Inv t → ok t e → step t e = some u → Inv u ∧ μ u < μ t)
    (h : Run step ok s es t) : es.length ≤ μ s := by
  suffices hsum : Inv t ∧ es.length + μ t ≤ μ s by omega
  induction h with
  | nil => exact ⟨hs, by simp⟩
  | snoc _ hok hst ih =>
    obtain ⟨hi, hlt⟩ := hstep _ _ _ ih.1 hok hst
    have hle := ih.2
    exact ⟨hi, by simp only [List.length_append, List.length_singleton]; omega⟩

/-- A measure that every admitted step decreases by one counts the steps of every run. -/
theorem length_add_eq {μ : σ → Nat} {Inv : σ → Prop} (hs : Inv s)
    (hstep : ∀ t e u, Inv t → ok t e → step t e = some u → Inv u ∧ μ t = μ u + 1)
    (h : Run step ok s es t) : es.length + μ t = μ s := by
  suffices hsum : Inv t ∧ es.length + μ t = μ s from hsum.2
  induction h with
  | nil => exact ⟨hs, by simp⟩
  | snoc _ hok hst ih =>
    obtain ⟨hi, hone⟩ := hstep _ _ _ ih.1 hok hst
    have heq := ih.2
    exact ⟨hi, by simp only [List.length_append, List.length_singleton]; omega⟩

/-- A machine whose steps leave less to do, and that can go on until it is at an end, comes to one
    from wherever it is. -/
theorem exists_end {μ : σ → Nat} {Inv Ended : σ → Prop} (hs : Inv s)
    (hstep : ∀ t e u, Inv t → ok t e → step t e = some u → Inv u ∧ μ u < μ t)
    (hgo : ∀ t, Inv t → ¬Ended t → ∃ e u, ok t e ∧ step t e = some u) :
    ∃ es t, Run step ok s es t ∧ Inv t ∧ Ended t := by
  generalize hm : μ s = m
  induction m using Nat.strong_induction_on generalizing s with
  | _ m ih =>
    by_cases hend : Ended s
    · exact ⟨[], s, .nil, hs, hend⟩
    · obtain ⟨e, u, hok, hu⟩ := hgo s hs hend
      obtain ⟨hi, hlt⟩ := hstep s e u hs hok hu
      obtain ⟨es, t, hr, ht⟩ := ih (μ u) (hm ▸ hlt) hi rfl
      exact ⟨e :: es, t, hr.cons hok hu, ht⟩

end Run

/-! ## Evaluating a run -/

/-- Run the machine on a list of events; `none` when an event is not possible or `ok`
    refuses it. -/
def exec (step : σ → ε → Option σ) (ok : σ → ε → Prop) [∀ s e, Decidable (ok s e)] :
    List ε → σ → Option σ
  | [], s => some s
  | e :: es, s => if ok s e then (step s e).bind (exec step ok es) else none

theorem Run.of_exec {step : σ → ε → Option σ} {ok : σ → ε → Prop}
    [∀ s e, Decidable (ok s e)] {es : List ε} {s t : σ}
    (h : exec step ok es s = some t) : Run step ok s es t := by
  induction es generalizing s with
  | nil =>
    simp only [exec, Option.some.injEq] at h
    exact h ▸ .nil
  | cons e es ih =>
    simp only [exec] at h
    split at h
    · rename_i hok
      obtain ⟨u, hu, ht⟩ := Option.bind_eq_some_iff.mp h
      exact .cons hok hu (ih ht)
    · exact absurd h (by simp)

/-- A check that holds of the state a list of events evaluates to holds of a state some
    run reaches. -/
theorem Run.exists_of_exec {step : σ → ε → Option σ} {ok : σ → ε → Prop}
    [∀ s e, Decidable (ok s e)] {es : List ε} {s : σ} {p : σ → Bool}
    (h : (exec step ok es s).any p = true) : ∃ t, Run step ok s es t ∧ p t = true := by
  cases ht : exec step ok es s with
  | none => rw [ht] at h; exact absurd h (by simp)
  | some t => exact ⟨t, .of_exec ht, by simpa [ht] using h⟩

end Lib
