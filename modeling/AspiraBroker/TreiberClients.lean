/-
**Threads that use the lock-free stack through an interface.**

The threads of a program do not act on the stack at will: they make the calls of an interface, each
of which is an act on the stack or returns at once, and they pass nodes on.  Here the interface is a
type of calls with their acts.  The bound on the steps of the stack becomes a bound in terms of the
calls, for any way to count steps, calls and links that agrees with the acts.

Main definitions:

* `TreiberStack.Move`, `TreiberStack.Epilogue.stepBy` — the calls of an interface, and their steps;
* `TreiberStack.FreshBy` — no pop succeeds with a link that is out of date;
* `TreiberStack.Tallies` — steps, calls and links are counted as the acts have them.

Main results:

* `TreiberStack.Epilogue.exists_stepBy` — a thread inside of a call can take its next step;
* `TreiberStack.Tallies.steps_le` — **from a quiet state, `n` threads take at most `3 * n + m` steps
  for each call**, and one for each link.
-/

import AspiraBroker.TreiberEpilogue
import Mathlib.Algebra.BigOperators.Ring.List

set_option relaxedAutoImplicit false
set_option autoImplicit false

namespace TreiberStack

open Transition

universe u v w x y

variable {χ : Type y} {κ : Type v} {α : Type u} {ρ : Type w} {γ : Type x}

/-! ### The machine -/

/-- What may happen: a thread makes a call, or passes a node that it holds on to another thread. -/
inductive Move (χ : Type y) (κ : Type v) (α : Type u)
  | call (c : χ)
  | pass (k j : κ) (a : α)

/-- The move as a deed, where `act` says what the calls do on the stack. -/
def Move.deed (act : χ → Option (Act κ α)) : Move χ κ α → Option (Deed κ α)
  | .call c => (act c).map .act
  | .pass k j a => some (.pass k j a)

section Step

variable [DecidableEq κ] [DecidableEq α]

/-- One step of one thread.  A call that is no act returns at once. -/
def Epilogue.stepBy (E : Epilogue ρ γ) (reload : Bool) (act : χ → Option (Act κ α))
    (σ : Shared κ α ρ γ) (m : Move χ κ α) : Option (Shared κ α ρ γ) :=
  match m.deed act with
  | none => some σ
  | some d => E.step reload σ d

/-- The move is not a pop that succeeds with a link that is out of date. -/
def FreshBy (act : χ → Option (Act κ α)) (σ : Shared κ α ρ γ) (m : Move χ κ α) : Prop :=
  ∀ d ∈ m.deed act, Epilogue.Fresh σ d

instance [DecidableEq ρ] (act : χ → Option (Act κ α)) (σ : Shared κ α ρ γ) (m : Move χ κ α) :
    Decidable (FreshBy act σ m) :=
  inferInstanceAs (Decidable (∀ d ∈ m.deed act, Epilogue.Fresh σ d))

variable {E : Epilogue ρ γ} {reload : Bool} {act : χ → Option (Act κ α)}
variable {σ σ' : Shared κ α ρ γ} {m : Move χ κ α}

/-- A step leaves everything alone, or is that of a deed. -/
theorem Epilogue.deed_of_stepBy (h : E.stepBy reload act σ m = some σ') :
    (m.deed act = none ∧ σ' = σ) ∨ ∃ d, m.deed act = some d ∧ E.step reload σ d = some σ' := by
  unfold stepBy at h
  cases hd : m.deed act with
  | none =>
      rw [hd] at h
      exact .inl ⟨rfl, (Option.some.inj h).symm⟩
  | some d =>
      rw [hd] at h
      exact .inr ⟨d, rfl, h⟩

/-- **A thread inside of a call can take its next step.** -/
theorem Epilogue.exists_stepBy (E : Epilogue ρ γ) (reload : Bool) {k : κ}
    (hgo : m.deed act = some (.act (.go k))) (h : Busy σ k) :
    ∃ σ', E.stepBy reload act σ m = some σ' := by
  unfold stepBy
  rw [hgo]
  exact E.exists_go reload h

end Step

/-! ### Progress -/

/-- The steps of calls, the calls that begin, and the links inside of their batches are counted as
the acts have them. -/
structure Tallies (act : χ → Option (Act κ α)) (isStep isCall : Move χ κ α → Bool)
    (links : Move χ κ α → ℕ) : Prop where
  of_none : ∀ m, m.deed act = none → isStep m = false
  of_some : ∀ m d, m.deed act = some d →
    d.steps = (isStep m).toNat ∧ d.calls = (isCall m).toNat ∧ d.links = links m

namespace Tallies

variable [Fintype κ] [DecidableEq κ] [DecidableEq α] {E : Epilogue ρ γ} {reload : Bool}
variable {act : χ → Option (Act κ α)} {isStep isCall : Move χ κ α → Bool}
variable {links : Move χ κ α → ℕ} {σ σ' : Shared κ α ρ γ} {left : ρ → ℕ} {n : ℕ}

/-- What a move brings and takes, of the effort of the calls in progress. -/
theorem isStep_add_effort {m : Move χ κ α} (h : Tallies act isStep isCall links)
    (hE : E.Ends left n) (hstep : E.stepBy reload act σ m = some σ') :
    (isStep m).toNat + Epilogue.effort left n σ' ≤
      Epilogue.effort left n σ + ((3 * Fintype.card κ + n) * (isCall m).toNat + links m) := by
  rcases Epilogue.deed_of_stepBy hstep with ⟨hnone, rfl⟩ | ⟨d, hd, hdeed⟩
  · rw [h.of_none m hnone, Bool.toNat_false, Nat.zero_add]
    exact Nat.le_add_right _ _
  · obtain ⟨hsteps, hcalls, hlinks⟩ := h.of_some m d hd
    rw [← hsteps, ← hcalls, ← hlinks]
    exact Epilogue.steps_add_effort hE hdeed

/-- **From a quiet state, `n` threads take at most `3 * n + m` steps for each call**, and one for
each link, if what a call does after its swap takes up to `m` steps. -/
theorem steps_le (h : Tallies act isStep isCall links) (hE : E.Ends left n) (hquiet : Quiet σ)
    {moves : List (Move χ κ α)} (hrun : run (E.stepBy reload act) σ moves = some σ') :
    moves.countP isStep ≤
      (3 * Fintype.card κ + n) * moves.countP isCall + (moves.map links).sum := by
  have hmain := spent_le_of_potential (E.stepBy reload act) (fun _ m => (isStep m).toNat)
    (fun _ m => (3 * Fintype.card κ + n) * (isCall m).toNat + links m)
    (Epilogue.effort left n) (fun _ _ _ => h.isStep_add_effort hE) hrun
  rw [Epilogue.effort_eq_zero hquiet, spent_eq_sum hrun, spent_eq_sum hrun, List.sum_map_add,
    List.sum_map_mul_left, sum_toNat, sum_toNat] at hmain
  omega

end Tallies

end TreiberStack
