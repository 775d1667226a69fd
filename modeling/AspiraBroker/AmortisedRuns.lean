/-
**Amortised costs of runs.**

The cost of a step may depend on the state in which it is taken, and the cost of a run is the sum
over its steps.  A potential, which is a number for every state, turns a bound for each step into a
bound for the whole run: if no step costs more than its budget and the potential it releases, then
no run costs more than its budget and the potential it starts with.  A potential that goes down with
every step until a goal is reached bounds the steps up to the goal.

Main definitions:

* `Transition.spent` — what the steps of a run cost together.

Main results:

* `Transition.spent_le_of_potential` — **the cost of a run, bounded by a potential**;
* `Transition.reached_of_potential` — **progress by a potential**.
-/

import AspiraBroker.TransitionRuns
import Mathlib.Algebra.GroupWithZero.Nat
import Mathlib.Algebra.Order.BigOperators.Group.Finset

set_option relaxedAutoImplicit false
set_option autoImplicit false

namespace Transition

universe u v

variable {σ : Type u} {ι : Type v} {step : σ → ι → Option σ}

/-- What the steps of the run of `as` from `s` cost together. -/
def spent (step : σ → ι → Option σ) (cost : σ → ι → ℕ) : σ → List ι → ℕ
  | _, [] => 0
  | s, a :: as =>
      match step s a with
      | none => 0
      | some s' => cost s a + spent step cost s' as

variable {cost : σ → ι → ℕ} {s s' t : σ} {as : List ι}

@[simp] theorem spent_nil : spent step cost s [] = 0 := rfl

theorem spent_cons_eq {a : ι} (h : step s a = some s') :
    spent step cost s (a :: as) = cost s a + spent step cost s' as := by
  simp only [spent, h]

/-- **The cost of a run, bounded by a potential**: every step costs at most its budget and the
potential that it releases. -/
theorem spent_le_of_potential (step : σ → ι → Option σ) (cost budget : σ → ι → ℕ) (Φ : σ → ℕ)
    (hstep : ∀ s a s', step s a = some s' → cost s a + Φ s' ≤ Φ s + budget s a)
    (hr : run step s as = some t) :
    spent step cost s as + Φ t ≤ Φ s + spent step budget s as := by
  induction as generalizing s with
  | nil =>
      obtain rfl : s = t := by simpa using hr
      simp
  | cons a as ih =>
      obtain ⟨s', hs, hr'⟩ := run_cons_iff.1 hr
      have hfirst := hstep s a s' hs
      have hrest := ih hr'
      rw [spent_cons_eq hs, spent_cons_eq hs]
      omega

/-- A counter that every step advances by its cost shows the cost of the run. -/
theorem counter_eq_add_spent (step : σ → ι → Option σ) (cost : σ → ι → ℕ) (c : σ → ℕ)
    (hstep : ∀ s a s', step s a = some s' → c s' = c s + cost s a)
    (hr : run step s as = some t) : c t = c s + spent step cost s as := by
  induction as generalizing s with
  | nil =>
      obtain rfl : s = t := by simpa using hr
      simp
  | cons a as ih =>
      obtain ⟨s', hs, hr'⟩ := run_cons_iff.1 hr
      rw [ih hr', hstep s a s' hs, spent_cons_eq hs, Nat.add_assoc]

/-- A cost in proportion to another one. -/
theorem spent_mul (n : ℕ) :
    spent step (fun s a => n * cost s a) s as = n * spent step cost s as := by
  induction as generalizing s with
  | nil => rfl
  | cons a as ih =>
      cases hs : step s a with
      | none => simp [spent, hs]
      | some s' => rw [spent_cons_eq hs, spent_cons_eq hs, ih, Nat.mul_add]

/-- A cost that does not depend on the state is summed over the labels. -/
theorem spent_eq_sum {c : ι → ℕ} (hr : run step s as = some t) :
    spent step (fun _ a => c a) s as = (as.map c).sum := by
  induction as generalizing s with
  | nil => rfl
  | cons a as ih =>
      obtain ⟨s', hs, hr'⟩ := run_cons_iff.1 hr
      rw [spent_cons_eq hs, ih hr', List.map_cons, List.sum_cons]

/-- A cost of `1` for the labels of a kind. -/
theorem sum_toNat (p : ι → Bool) (as : List ι) :
    (as.map fun a => (p a).toNat).sum = as.countP p := by
  induction as with
  | nil => rfl
  | cons a as ih =>
      rw [List.map_cons, List.sum_cons, ih, List.countP_cons]
      cases p a <;> simp [Nat.add_comm]

/-! ### Progress -/

/-- **Progress by a potential**: if every step reaches the goal or lowers the potential, and the
goal is not left again, then a run that is longer than the potential it starts with is at the
goal. -/
theorem reached_of_potential (Φ : σ → ℕ) {I D : σ → Prop} {G : σ → ι → Prop}
    (hkeep : ∀ s a s', I s → G s a → step s a = some s' → I s')
    (hstay : ∀ s a s', I s → G s a → step s a = some s' → D s → D s')
    (hless : ∀ s a s', I s → G s a → step s a = some s' → D s' ∨ Φ s' < Φ s)
    (hs : I s) (hG : Along step G s as) (hr : run step s as = some t) (hlen : Φ s < as.length) :
    D t := by
  -- once at the goal, a run stays there
  have hgoal : ∀ {as : List ι} {s : σ}, I s → D s → Along step G s as → run step s as = some t →
      D t := by
    intro as s hs hD hG hr
    exact (run_induction (I := fun s => I s ∧ D s)
      (fun s a s' h hg hstep => ⟨hkeep s a s' h.1 hg hstep, hstay s a s' h.1 hg hstep h.2⟩)
      ⟨hs, hD⟩ hG hr).2
  induction as generalizing s with
  | nil => exact absurd hlen (Nat.not_lt_zero _)
  | cons a as ih =>
      obtain ⟨s', hstep, hr'⟩ := run_cons_iff.1 hr
      have hs' := hkeep s a s' hs hG.1 hstep
      have hG' := hG.2 s' hstep
      rcases hless s a s' hs hG.1 hstep with hD | hlt
      · exact hgoal hs' hD hG' hr'
      · refine ih hs' hG' hr' ?_
        rw [List.length_cons] at hlen
        omega

/-! ### Potentials that are sums over the parties -/

section Sum

variable {κ : Type u} [Fintype κ] [DecidableEq κ] {f g : κ → ℕ} {k : κ}

/-- One party moves: the sum changes by what its summand changes. -/
theorem sum_add_eq_of_others (h : ∀ j, j ≠ k → g j = f j) :
    ∑ j, g j + f k = ∑ j, f j + g k := by
  have hrest : ∑ j ∈ Finset.univ.erase k, g j = ∑ j ∈ Finset.univ.erase k, f j :=
    Finset.sum_congr rfl fun j hj => h j (Finset.ne_of_mem_erase hj)
  rw [← Finset.add_sum_erase _ g (Finset.mem_univ k),
    ← Finset.add_sum_erase _ f (Finset.mem_univ k), hrest]
  omega

/-- A summand that is at most `1` for every party but one, for which it is `0`. -/
theorem sum_le_card_sub_one (hk : g k = 0) (h : ∀ j, g j ≤ 1) :
    ∑ j, g j ≤ Fintype.card κ - 1 := by
  rw [← Finset.add_sum_erase _ g (Finset.mem_univ k), hk, Nat.zero_add]
  calc ∑ j ∈ Finset.univ.erase k, g j ≤ ∑ j ∈ Finset.univ.erase k, 1 :=
        Finset.sum_le_sum fun j _ => h j
    _ = Fintype.card κ - 1 := by
        rw [← Finset.card_eq_sum_ones, Finset.card_erase_of_mem (Finset.mem_univ k),
          Finset.card_univ]

end Sum

end Transition
