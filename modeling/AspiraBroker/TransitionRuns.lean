/-
**Runs of labelled transition systems.**

A system is given by a partial step function `step : σ → ι → Option σ`: from a state `s` the label
`a` leads to `s'` when `step s a = some s'`, and is not enabled when `step s a = none`.  A label
names whatever the environment decides — which thread moves, what a system call returns — so a list
of labels is an interleaving, and the state it leads to is a function of it.

Main definitions:

* `Transition.run` — the state a list of labels leads to;
* `Transition.Along` — every step taken on the way meets a condition on the state before the step
  and its label;
* `Transition.Throughout` — every state on the way, both ends included, meets a condition.

Main results:

* `Transition.run_induction` — **the invariant rule**: what holds initially and is kept by every
  step that meets a guard holds at the end of every run whose steps all meet it;
* `Transition.exists_run_of_enabled`, `Transition.exists_along` — runs exist where steps do;
* `Transition.along_of_invariant`, `Transition.throughout_of_invariant` — the same, for a condition
  on the steps and on the states of the run;
* `Transition.along_iff_of_invariant` — two conditions that agree under an invariant hold along the
  same runs, even when only one of them is what keeps the invariant;
* `Transition.throughout_iff_of_guarded`, `Transition.throughout_iff_of_invariant` — the same, for a
  condition on the states;
* `Transition.along_iff_of_stable`, `Transition.along_iff_of_loss` — the same, for a loss that no
  later step makes good;
* `Transition.of_update`, `Transition.apply_update_eq` — what a step of one party among many leaves
  of the others.
-/

import Mathlib.Data.List.Basic
import Mathlib.Logic.Function.Basic

set_option relaxedAutoImplicit false
set_option autoImplicit false

namespace Transition

universe u v

variable {σ : Type u} {ι : Type v} {step : σ → ι → Option σ}

/-- The state that the labels `as` lead to from `s`, if every one of them is enabled in turn. -/
def run (step : σ → ι → Option σ) : σ → List ι → Option σ
  | s, [] => some s
  | s, a :: as =>
      match step s a with
      | none => none
      | some s' => run step s' as

@[simp] theorem run_nil (s : σ) : run step s [] = some s := rfl

theorem run_cons_eq {s s' : σ} {a : ι} (h : step s a = some s') (as : List ι) :
    run step s (a :: as) = run step s' as := by
  simp only [run, h]

/-- A run that starts with `a` takes that step and runs on. -/
theorem run_cons_iff {s t : σ} {a : ι} {as : List ι} :
    run step s (a :: as) = some t ↔ ∃ s', step s a = some s' ∧ run step s' as = some t := by
  cases h : step s a with
  | none => simp [run, h]
  | some s' => simp [run, h]

/-- Runs compose. -/
theorem run_append_eq {s t : σ} {as : List ι} (h : run step s as = some t) (bs : List ι) :
    run step s (as ++ bs) = run step t bs := by
  induction as generalizing s with
  | nil =>
      obtain rfl : s = t := by simpa using h
      rfl
  | cons a as ih =>
      obtain ⟨s', hs, hr⟩ := run_cons_iff.1 h
      rw [List.cons_append, run_cons_eq hs]
      exact ih hr

/-- Every step of the run of `as` from `s` meets `G`, a condition on the state before the step and
on its label. -/
def Along (step : σ → ι → Option σ) (G : σ → ι → Prop) : σ → List ι → Prop
  | _, [] => True
  | s, a :: as => G s a ∧ ∀ s', step s a = some s' → Along step G s' as

/-- Every state of the run of `as` from `s` meets `Q`. -/
def Throughout (step : σ → ι → Option σ) (Q : σ → Prop) : σ → List ι → Prop
  | s, [] => Q s
  | s, a :: as => Q s ∧ ∀ s', step s a = some s' → Throughout step Q s' as

variable {G P : σ → ι → Prop} {I Q : σ → Prop}

@[simp] theorem along_nil (s : σ) : Along step G s [] := trivial

theorem along_cons_iff {s : σ} {a : ι} {as : List ι} :
    Along step G s (a :: as) ↔ G s a ∧ ∀ s', step s a = some s' → Along step G s' as := Iff.rfl

/-- A condition that every step meets holds along every run. -/
theorem along_of_forall (h : ∀ s a, G s a) (s : σ) (as : List ι) : Along step G s as := by
  induction as generalizing s with
  | nil => exact along_nil s
  | cons a as ih => exact ⟨h s a, fun s' _ => ih s'⟩

/-- A condition that follows from another one for every step follows along every run. -/
theorem Along.imp (h : ∀ s a, G s a → P s a) {s : σ} {as : List ι} (hG : Along step G s as) :
    Along step P s as := by
  induction as generalizing s with
  | nil => exact along_nil s
  | cons a as ih => exact ⟨h s a hG.1, fun s' hstep => ih (hG.2 s' hstep)⟩

/-- A decidable condition is checked along a run by running it. -/
instance decidableAlong [∀ s a, Decidable (G s a)] :
    ∀ (s : σ) (as : List ι), Decidable (Along step G s as)
  | _, [] => isTrue trivial
  | s, a :: as =>
      match h : step s a with
      | none =>
          decidable_of_iff (G s a)
            ⟨fun hg => ⟨hg, fun s' hs => by rw [h] at hs; cases hs⟩, fun hc => hc.1⟩
      | some s' =>
          haveI := decidableAlong s' as
          decidable_of_iff (G s a ∧ Along step G s' as)
            ⟨fun hc => ⟨hc.1, fun t ht => by rw [h] at ht; cases ht; exact hc.2⟩,
              fun hc => ⟨hc.1, hc.2 s' h⟩⟩

/-- Two conditions hold along a run together exactly when each of them does. -/
theorem along_and_iff {s : σ} {as : List ι} :
    Along step (fun s a => G s a ∧ P s a) s as ↔ Along step G s as ∧ Along step P s as := by
  induction as generalizing s with
  | nil => simp
  | cons a as ih =>
      simp only [along_cons_iff, ih]
      constructor
      · rintro ⟨⟨hG, hP⟩, h⟩
        exact ⟨⟨hG, fun s' hs => (h s' hs).1⟩, ⟨hP, fun s' hs => (h s' hs).2⟩⟩
      · rintro ⟨⟨hG, hGs⟩, ⟨hP, hPs⟩⟩
        exact ⟨⟨hG, hP⟩, fun s' hs => ⟨hGs s' hs, hPs s' hs⟩⟩

theorem throughout_head {s : σ} {as : List ι} (h : Throughout step Q s as) : Q s := by
  cases as with
  | nil => exact h
  | cons a as => exact h.1

/-- Under an invariant that implies `Q` and is kept by `G`-steps, `Q` holds throughout exactly the
runs along which `G` does, provided a step that does not meet `G` can lead out of `Q`.  All of this
may depend on a further condition `H` that the steps of the run are known to meet. -/
theorem throughout_iff_of_guarded {H : σ → ι → Prop}
    (hkeep : ∀ s a s', I s → H s a → G s a → step s a = some s' → I s') (hQ : ∀ s, I s → Q s)
    (hG : ∀ s a, I s → H s a → (∀ s', step s a = some s' → Q s') → G s a) {s : σ} {as : List ι}
    (hs : I s) (hH : Along step H s as) : Throughout step Q s as ↔ Along step G s as := by
  induction as generalizing s with
  | nil => exact ⟨fun _ => along_nil s, fun _ => hQ s hs⟩
  | cons a as ih =>
      constructor
      · rintro ⟨-, h⟩
        have hg : G s a := hG s a hs hH.1 fun s' hstep => throughout_head (h s' hstep)
        refine ⟨hg, fun s' hstep => ?_⟩
        exact (ih (hkeep s a s' hs hH.1 hg hstep) (hH.2 s' hstep)).1 (h s' hstep)
      · rintro ⟨hg, h⟩
        refine ⟨hQ s hs, fun s' hstep => ?_⟩
        exact (ih (hkeep s a s' hs hH.1 hg hstep) (hH.2 s' hstep)).2 (h s' hstep)

section Invariant

variable (hkeep : ∀ s a s', I s → G s a → step s a = some s' → I s')

include hkeep

/-- **The invariant rule.**  An invariant kept by every step that meets the guard `G` holds at the
end of every run whose steps all meet it. -/
theorem run_induction {s t : σ} {as : List ι} (hs : I s) (hG : Along step G s as)
    (hr : run step s as = some t) : I t := by
  induction as generalizing s with
  | nil =>
      obtain rfl : s = t := by simpa using hr
      exact hs
  | cons a as ih =>
      obtain ⟨s', hstep, hr'⟩ := run_cons_iff.1 hr
      exact ih (hkeep s a s' hs hG.1 hstep) (hG.2 s' hstep) hr'

/-- Where every label that meets the guard is enabled, a list of such labels leads somewhere. -/
theorem exists_run_of_enabled (henabled : ∀ s a, I s → G s a → ∃ s', step s a = some s') {s : σ}
    {as : List ι} (hs : I s) (hG : Along step G s as) : ∃ t, run step s as = some t := by
  induction as generalizing s with
  | nil => exact ⟨s, rfl⟩
  | cons a as ih =>
      obtain ⟨s', hstep⟩ := henabled s a hs hG.1
      rw [run_cons_eq hstep]
      exact ih (hkeep s a s' hs hG.1 hstep) (hG.2 s' hstep)

/-- Where some label of a kind is always enabled and meets the guard, there are runs of any length
that meet it. -/
theorem exists_along {β : Type*} {f : β → ι}
    (hnext : ∀ s, I s → ∃ b s', G s (f b) ∧ step s (f b) = some s') {s : σ} (hs : I s) (n : ℕ) :
    ∃ bs : List β, bs.length = n ∧ Along step G s (bs.map f) := by
  induction n generalizing s with
  | zero => exact ⟨[], rfl, along_nil s⟩
  | succ n ih =>
      obtain ⟨b, s', hg, hstep⟩ := hnext s hs
      obtain ⟨bs, hlen, hbs⟩ := ih (hkeep s (f b) s' hs hg hstep)
      refine ⟨b :: bs, by rw [List.length_cons, hlen], hg, fun t ht => ?_⟩
      obtain rfl : s' = t := Option.some.inj (hstep.symm.trans ht)
      exact hbs

/-- What an invariant and the guard say about a single step holds along the whole run. -/
theorem along_of_invariant (hP : ∀ s a, I s → G s a → P s a) {s : σ} {as : List ι} (hs : I s)
    (hG : Along step G s as) : Along step P s as := by
  induction as generalizing s with
  | nil => exact along_nil s
  | cons a as ih =>
      exact ⟨hP s a hs hG.1, fun s' hstep => ih (hkeep s a s' hs hG.1 hstep) (hG.2 s' hstep)⟩

/-- What an invariant says about a single state holds throughout the run. -/
theorem throughout_of_invariant (hQ : ∀ s, I s → Q s) {s : σ} {as : List ι} (hs : I s)
    (hG : Along step G s as) : Throughout step Q s as := by
  induction as generalizing s with
  | nil => exact hQ s hs
  | cons a as ih =>
      exact ⟨hQ s hs, fun s' hstep => ih (hkeep s a s' hs hG.1 hstep) (hG.2 s' hstep)⟩

/-- Under an invariant kept by `G`-steps, a condition that agrees with `G` on the states of the
invariant holds along exactly the runs along which `G` does. -/
theorem along_iff_of_invariant (hP : ∀ s a, I s → (P s a ↔ G s a)) {s : σ} {as : List ι}
    (hs : I s) : Along step P s as ↔ Along step G s as := by
  induction as generalizing s with
  | nil => simp
  | cons a as ih =>
      simp only [along_cons_iff]
      constructor
      · rintro ⟨hp, h⟩
        have hg := (hP s a hs).1 hp
        exact ⟨hg, fun s' hstep => (ih (hkeep s a s' hs hg hstep)).1 (h s' hstep)⟩
      · rintro ⟨hg, h⟩
        exact ⟨(hP s a hs).2 hg, fun s' hstep => (ih (hkeep s a s' hs hg hstep)).2 (h s' hstep)⟩

/-- The same without a further condition. -/
theorem throughout_iff_of_invariant (hQ : ∀ s, I s → Q s)
    (hG : ∀ s a, I s → (∀ s', step s a = some s' → Q s') → G s a) {s : σ} {as : List ι}
    (hs : I s) : Throughout step Q s as ↔ Along step G s as :=
  throughout_iff_of_guarded (H := fun _ _ => True) (fun s a s' h _ hg => hkeep s a s' h hg) hQ
    (fun s a h _ => hG s a h) hs (along_of_forall (fun _ _ => trivial) s as)

/-- **The rule for a loss that cannot be made good.**  Let `F` be lost by a step exactly when the
step does not meet `C`, and let no later step regain it.  Then a run ends without the loss exactly
when all its steps meet `C`. -/
theorem along_iff_of_stable {C : σ → ι → Prop} {F : σ → Prop}
    (hlose : ∀ s a s', I s → G s a → ¬ F s → step s a = some s' → (C s a ↔ ¬ F s'))
    (hstay : ∀ s a s', I s → G s a → F s → step s a = some s' → F s')
    {s t : σ} {as : List ι} (hs : I s) (hF : ¬ F s) (hG : Along step G s as)
    (hr : run step s as = some t) : Along step C s as ↔ ¬ F t := by
  induction as generalizing s with
  | nil =>
      obtain rfl : s = t := by simpa using hr
      exact ⟨fun _ => hF, fun _ => along_nil s⟩
  | cons a as ih =>
      obtain ⟨s', hstep, hr'⟩ := run_cons_iff.1 hr
      have hs' := hkeep s a s' hs hG.1 hstep
      have hC := hlose s a s' hs hG.1 hF hstep
      by_cases hF' : F s'
      · -- the step loses, and the rest of the run does not regain
        have hlost : I t ∧ F t :=
          run_induction (I := fun s => I s ∧ F s)
            (fun s a s' h hg hstep => ⟨hkeep s a s' h.1 hg hstep, hstay s a s' h.1 hg h.2 hstep⟩)
            ⟨hs', hF'⟩ (hG.2 s' hstep) hr'
        exact ⟨fun h => absurd hF' (hC.1 h.1), fun h => absurd hlost.2 h⟩
      · rw [← ih hs' hF' (hG.2 s' hstep) hr', along_cons_iff]
        constructor
        · rintro ⟨-, h⟩
          exact h s' hstep
        · intro h
          refine ⟨hC.2 hF', fun t' ht' => ?_⟩
          obtain rfl : s' = t' := Option.some.inj (hstep.symm.trans ht')
          exact h

/-- The same, when one equivalence says what each step does to the loss. -/
theorem along_iff_of_loss {C : σ → ι → Prop} {F : σ → Prop}
    (hloss : ∀ s a s', I s → G s a → step s a = some s' → (F s' ↔ F s ∨ ¬ C s a))
    {s t : σ} {as : List ι} (hs : I s) (hF : ¬ F s) (hG : Along step G s as)
    (hr : run step s as = some t) : Along step C s as ↔ ¬ F t := by
  refine along_iff_of_stable hkeep (fun s a s' h hg hnot hstep => ?_)
    (fun s a s' h hg hlost hstep => ?_) hs hF hG hr
  · rw [hloss s a s' h hg hstep, or_iff_right hnot, not_not]
  · exact (hloss s a s' h hg hstep).2 (Or.inl hlost)

end Invariant

/-- A step that meets its condition and leaves the loss as it was. -/
theorem loss_of_iff {F F' C : Prop} (h : F' ↔ F) (hC : C) : F' ↔ F ∨ ¬ C := by
  rw [h, or_iff_left (not_not.2 hC)]

/-! ### One party among many -/

section Parties

variable {κ : Type u} {β : Type v} [DecidableEq κ] {f : κ → β} {p : κ} {b : β}

/-- After one party has moved, a fact about where a party stands is one about the new place, or
about another party. -/
theorem of_update {P : β → Prop} {q : κ} (h : P (Function.update f p b q)) :
    (q = p ∧ P b) ∨ (q ≠ p ∧ P (f q)) := by
  by_cases hq : q = p
  · subst hq
    rw [Function.update_self] at h
    exact Or.inl ⟨rfl, h⟩
  · rw [Function.update_of_ne hq] at h
    exact Or.inr ⟨hq, h⟩

/-- What a move leaves alone of the party's own state, it leaves alone of all of them. -/
theorem apply_update_eq {γ : Type*} (g : β → γ) (h : g b = g (f p)) (q : κ) :
    g (Function.update f p b q) = g (f q) := by
  by_cases hq : q = p
  · subst hq
    rw [Function.update_self, h]
  · rw [Function.update_of_ne hq]

end Parties

end Transition
