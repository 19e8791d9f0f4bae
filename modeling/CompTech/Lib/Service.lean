import Mathlib

/-!
# Two services that are asked the same

A service is a machine seen through its answers: a request takes the state to an answer and a
next state, or is undefined. `serve` asks one request after another.

Two services over different states are compared along a relation `R` between the states.
`Agree` is one request: both answer, the same, and `R` holds again. `InStep` is that along a whole
list of requests, and `InStep.serve` says what it means for the answers. When a condition on the
second service alone decides each single request, it decides the lists as well (`inStep_iff`):
this is a simulation together with its converse, so that nothing outside the condition can go
well by accident.
-/

namespace Lib

universe u v w x

/-- `none` is an undefined request. -/
abbrev Service (σ : Type u) (ρ : Type v) (α : Type w) := σ → ρ → Option (α × σ)

namespace Service

variable {σ : Type u} {τ : Type x} {ρ : Type v} {α : Type w}

/-- One request after another, with the answers in order. -/
def serve (m : Service σ ρ α) : σ → List ρ → Option (List α × σ)
  | s, [] => some ([], s)
  | s, q :: qs => (m s q).bind fun x => (serve m x.2 qs).map fun y => (x.1 :: y.1, y.2)

theorem serve_cons {m : Service σ ρ α} {s s' t : σ} {q : ρ} {qs : List ρ} {r : α} {rs : List α}
    (hq : m s q = some (r, s')) (hqs : serve m s' qs = some (rs, t)) :
    serve m s (q :: qs) = some (r :: rs, t) := by
  simp only [serve, hq, Option.bind_some, hqs, Option.map_some]

/-- `ok` holds of every request, in the state the requests before it lead to. -/
def All (m : Service σ ρ α) (ok : σ → ρ → Prop) : σ → List ρ → Prop
  | _, [] => True
  | s, q :: qs => ok s q ∧ ∀ r s', m s q = some (r, s') → All m ok s' qs

theorem all_cons {m : Service σ ρ α} {ok : σ → ρ → Prop} {s s' : σ} {q : ρ} {qs : List ρ} {r : α}
    (hq : m s q = some (r, s')) : All m ok s (q :: qs) ↔ ok s q ∧ All m ok s' qs := by
  refine and_congr_right fun _ => ⟨fun hall => hall r s' hq, fun hall r₁ s₁ hs₁ => ?_⟩
  obtain ⟨rfl, rfl⟩ := Prod.mk.inj (Option.some.inj (hq.symm.trans hs₁))
  exact hall

section Compare

variable (R : σ → τ → Prop) (m : Service σ ρ α) (m' : Service τ ρ α)

/-- Both services answer the request, in the same way, and stay related. -/
def Agree (s : σ) (t : τ) (q : ρ) : Prop :=
  ∃ r s' t', m s q = some (r, s') ∧ m' t q = some (r, t') ∧ R s' t'

/-- They do so at every request of the list. -/
def InStep : σ → τ → List ρ → Prop
  | _, _, [] => True
  | s, t, q :: qs => ∃ r s' t', m s q = some (r, s') ∧ m' t q = some (r, t') ∧ R s' t' ∧
      InStep s' t' qs

variable {R m m'}

theorem agree_iff {s s' : σ} {t t' : τ} {q : ρ} {r r' : α} (hs : m s q = some (r, s'))
    (ht : m' t q = some (r', t')) : Agree R m m' s t q ↔ r = r' ∧ R s' t' := by
  constructor
  · rintro ⟨r₁, s₁, t₁, hs₁, ht₁, hR⟩
    obtain ⟨rfl, rfl⟩ := Prod.mk.inj (Option.some.inj (hs.symm.trans hs₁))
    obtain ⟨rfl, rfl⟩ := Prod.mk.inj (Option.some.inj (ht.symm.trans ht₁))
    exact ⟨rfl, hR⟩
  · rintro ⟨rfl, hR⟩
    exact ⟨r, s', t', hs, ht, hR⟩

theorem not_agree {s : σ} {t : τ} {q : ρ} (hs : m s q = none) : ¬Agree R m m' s t q := by
  rintro ⟨r, s', t', hs', -⟩
  rw [hs] at hs'
  cases hs'

/-- **In step is: the same answers.** -/
theorem InStep.serve : ∀ {qs : List ρ} {s : σ} {t : τ}, R s t → InStep R m m' s t qs →
    ∃ rs s' t', m.serve s qs = some (rs, s') ∧ m'.serve t qs = some (rs, t') ∧ R s' t' := by
  intro qs
  induction qs with
  | nil => exact fun hR _ => ⟨[], _, _, rfl, rfl, hR⟩
  | cons q qs ih =>
    rintro s t - ⟨r, s', t', hs, ht, hR', hqs⟩
    obtain ⟨rs, s'', t'', hrs, hrt, hR''⟩ := ih hR' hqs
    exact ⟨r :: rs, s'', t'', serve_cons hs hrs, serve_cons ht hrt, hR''⟩

/-- **What decides a request decides a list of them.** In scope, two related states agree on a
    request exactly where `ok` holds of it; then they stay in step exactly where `ok` holds all
    along. Induction on the requests: up to the first that is not `ok` the services are in
    step, and there they are not. -/
theorem inStep_iff {scope ok : τ → ρ → Prop}
    (hstep : ∀ s t q, R s t → scope t q → (Agree R m m' s t q ↔ ok t q)) :
    ∀ {qs : List ρ} {s : σ} {t : τ}, R s t → m'.All scope t qs →
      (InStep R m m' s t qs ↔ m'.All ok t qs) := by
  intro qs
  induction qs with
  | nil => exact fun _ _ => Iff.rfl
  | cons q qs ih =>
    rintro s t hR ⟨hq, hqs⟩
    constructor
    · rintro ⟨r, s', t', hs, ht, hR', hrest⟩
      refine ⟨(hstep s t q hR hq).mp ⟨r, s', t', hs, ht, hR'⟩, fun r₁ t₁ ht₁ => ?_⟩
      obtain ⟨rfl, rfl⟩ := Prod.mk.inj (Option.some.inj (ht.symm.trans ht₁))
      exact (ih hR' (hqs _ _ ht)).mp hrest
    · rintro ⟨hok, hrest⟩
      obtain ⟨r, s', t', hs, ht, hR'⟩ := (hstep s t q hR hq).mpr hok
      exact ⟨r, s', t', hs, ht, hR', (ih hR' (hqs _ _ ht)).mpr (hrest _ _ ht)⟩

end Compare

end Service

end Lib
