/-
**Refinement of a specification by a step function.**

A component answers calls: its step function takes a state and a call to the next state and a
result.  A specification says the same of an abstract state, as a relation, and for which calls it
says anything.  The component refines the specification if, as long as the calls are ones it speaks
of, every call returns and the results are results of the specification.  The rule is the usual one:
a relation between the two states that every such call carries over.

Main definitions:

* `Refinement.Refines` — the results of a list of calls are those of the specification.

Main results:

* `Refinement.refines_of_simulation` — **the simulation rule**.
-/

import Mathlib.Data.List.Basic

set_option relaxedAutoImplicit false
set_option autoImplicit false

namespace Refinement

universe u v w x

variable {σ : Type u} {τ : Type v} {ι : Type w} {ρ : Type x}

/-- From the states `s` and `t`, the calls return one after the other, with results that the
specification gives, as long as it speaks of them. -/
def Refines (step : σ → ι → Option (σ × ρ)) (pre : τ → ι → Prop) (spec : τ → ι → ρ → τ → Prop) :
    σ → τ → List ι → Prop
  | _, _, [] => True
  | s, t, a :: as => pre t a →
      ∃ s' r t', step s a = some (s', r) ∧ spec t a r t' ∧ Refines step pre spec s' t' as

variable {step : σ → ι → Option (σ × ρ)} {pre : τ → ι → Prop} {spec : τ → ι → ρ → τ → Prop}
  {R : σ → τ → Prop}

/-- **The simulation rule.**  If every call that the specification speaks of returns from related
states, with a result of the specification, in related states, then so does every list of them. -/
theorem refines_of_simulation
    (hsim : ∀ s t a, R s t → pre t a → ∃ s' r t', step s a = some (s', r) ∧ spec t a r t' ∧ R s' t')
    {s : σ} {t : τ} (h : R s t) (as : List ι) : Refines step pre spec s t as := by
  induction as generalizing s t with
  | nil => trivial
  | cons a as ih =>
      intro hpre
      obtain ⟨s', r, t', hstep, hspec, h'⟩ := hsim s t a h hpre
      exact ⟨s', r, t', hstep, hspec, ih h'⟩

end Refinement
