/-
**Two runs that look the same to an observer.**

A property of pairs of runs, such as that one party of a system is not affected by what the others
do, compares what comes out of two runs in which the same goes in.  Runs differ in length and in the
interleaving, so they cannot be compared step by step: between two steps that the observer sees,
either run may take any number of hidden steps.

The rule of this module reduces the comparison to single steps.  It asks for a relation between the
states of the two runs which a hidden step of either run keeps and which two steps that look the
same to the observer keep together, with the same output.

Main definitions:

* `Transition.observed` — what an observer sees of a run;
* `Transition.Observer` — a system, the steps under consideration, what is seen of a step, and what
  the step puts out;
* `Transition.Unwinds` — the conditions on single steps.

Main results:

* `Transition.Unwinds.observed_eq` — **the unwinding rule**: where the same is seen, the same comes
  out.
-/

import AspiraBroker.TransitionRuns

set_option relaxedAutoImplicit false
set_option autoImplicit false

namespace Transition

universe u v w x y z

/-! ### Observations -/

section Observed

variable {σ : Type u} {ι : Type v} {κ : Type w} {step : σ → ι → Option σ}
  {see : σ → ι → Option κ} {s s' : σ} {a : ι}

/-- What an observer sees of the run of `as` from `s`, up to the first label that is not enabled. -/
def observed (step : σ → ι → Option σ) (see : σ → ι → Option κ) : σ → List ι → List κ
  | _, [] => []
  | s, a :: as =>
      match step s a with
      | none => []
      | some s' => (see s a).toList ++ observed step see s' as

theorem observed_of_disabled (h : step s a = none) (as : List ι) :
    observed step see s (a :: as) = [] := by
  simp only [observed, h]

theorem observed_of_hidden (h : step s a = some s') (hsee : see s a = none) (as : List ι) :
    observed step see s (a :: as) = observed step see s' as := by
  simp only [observed, h, hsee, Option.toList_none, List.nil_append]

theorem observed_of_seen {k : κ} (h : step s a = some s') (hsee : see s a = some k)
    (as : List ι) : observed step see s (a :: as) = k :: observed step see s' as := by
  simp only [observed, h, hsee, Option.toList_some, List.singleton_append]

/-- Two observers who see the same of every label of a run, up to `f`, see the same of the run. -/
theorem observed_eq_map {μ : Type x} {see' : σ → ι → Option μ} (f : μ → κ) {as : List ι}
    (h : ∀ a ∈ as, ∀ s, see s a = (see' s a).map f) (s : σ) :
    observed step see s as = (observed step see' s as).map f := by
  induction as generalizing s with
  | nil => rfl
  | cons a as ih =>
      have hrest := ih fun a' ha' => h a' (List.mem_cons_of_mem a ha')
      cases hstep : step s a with
      | none => rw [observed_of_disabled hstep, observed_of_disabled hstep, List.map_nil]
      | some s' =>
          simp only [observed, hstep, hrest, h a List.mem_cons_self, List.map_append]
          cases see' s a <;> rfl

end Observed

/-! ### The unwinding rule -/

/-- A system with an observer: which steps are considered, what the observer sees of a step, and
what the step puts out for the observer. -/
structure Observer (σ : Type u) (ι : Type v) (κ : Type w) (ω : Type x) where
  step : σ → ι → Option σ
  guard : σ → ι → Prop
  see : σ → ι → Option κ
  emit : σ → ι → Option ω

variable {σ : Type u} {ι : Type v} {τ : Type y} {θ : Type z} {κ : Type w} {ω : Type x}

/-- The relation `R` is kept by hidden steps, which put out nothing, and by pairs of steps that look
the same, which put out the same. -/
structure Unwinds (M : Observer σ ι κ ω) (N : Observer τ θ κ ω) (R : σ → τ → Prop) : Prop where
  left : ∀ {s t a s'}, R s t → M.guard s a → M.step s a = some s' → M.see s a = none →
    R s' t ∧ M.emit s a = none
  right : ∀ {s t b t'}, R s t → N.guard t b → N.step t b = some t' → N.see t b = none →
    R s t' ∧ N.emit t b = none
  both : ∀ {s t a b s' t' k}, R s t → M.guard s a → N.guard t b → M.step s a = some s' →
    N.step t b = some t' → M.see s a = some k → N.see t b = some k →
    R s' t' ∧ M.emit s a = N.emit t b

namespace Unwinds

variable {M : Observer σ ι κ ω} {N : Observer τ θ κ ω} {R : σ → τ → Prop}

theorem symm (h : Unwinds M N R) : Unwinds N M (flip R) where
  left := h.right
  right := h.left
  both hR hb ha hN hM hseeN hseeM :=
    let ⟨hR', hemit⟩ := h.both hR ha hb hM hN hseeM hseeN
    ⟨hR', hemit.symm⟩

/-- A run of which nothing is seen puts out nothing. -/
theorem emit_eq_nil (h : Unwinds M N R) {s : σ} {t : τ} {as : List ι} (hR : R s t)
    (hM : Along M.step M.guard s as) (hsee : observed M.step M.see s as = []) :
    observed M.step M.emit s as = [] := by
  induction as generalizing s with
  | nil => rfl
  | cons a as ih =>
      cases hstep : M.step s a with
      | none => exact observed_of_disabled hstep as
      | some s' =>
          cases hk : M.see s a with
          | none =>
              obtain ⟨hR', hemit⟩ := h.left hR hM.1 hstep hk
              rw [observed_of_hidden hstep hemit]
              rw [observed_of_hidden hstep hk] at hsee
              exact ih hR' (hM.2 s' hstep) hsee
          | some k =>
              rw [observed_of_seen hstep hk] at hsee
              cases hsee

/-- **The unwinding rule.**  Two runs from related states of which the same is seen put out the
same. -/
theorem observed_eq (h : Unwinds M N R) {s : σ} {t : τ} {as : List ι} {bs : List θ} (hR : R s t)
    (hM : Along M.step M.guard s as) (hN : Along N.step N.guard t bs)
    (hsee : observed M.step M.see s as = observed N.step N.see t bs) :
    observed M.step M.emit s as = observed N.step N.emit t bs := by
  induction as generalizing s t bs with
  | nil => exact (h.symm.emit_eq_nil hR hN hsee.symm).symm
  | cons a as ih =>
      cases hstep : M.step s a with
      | none =>
          rw [observed_of_disabled hstep] at hsee ⊢
          exact (h.symm.emit_eq_nil hR hN hsee.symm).symm
      | some s' =>
          cases hk : M.see s a with
          | none =>
              obtain ⟨hR', hemit⟩ := h.left hR hM.1 hstep hk
              rw [observed_of_hidden hstep hemit]
              rw [observed_of_hidden hstep hk] at hsee
              exact ih hR' (hM.2 s' hstep) hN hsee
          | some k =>
              rw [observed_of_seen hstep hk] at hsee
              -- the other run reaches its matching step after some hidden ones
              induction bs generalizing t with
              | nil => cases hsee
              | cons b bs ih' =>
                  cases hstep' : N.step t b with
                  | none =>
                      rw [observed_of_disabled hstep'] at hsee
                      cases hsee
                  | some t' =>
                      cases hk' : N.see t b with
                      | none =>
                          obtain ⟨hR', hemit⟩ := h.right hR hN.1 hstep' hk'
                          rw [observed_of_hidden hstep' hemit]
                          rw [observed_of_hidden hstep' hk'] at hsee
                          exact ih' hR' (hN.2 t' hstep') hsee
                      | some k' =>
                          rw [observed_of_seen hstep' hk'] at hsee
                          obtain ⟨rfl, hrest⟩ := List.cons.inj hsee
                          obtain ⟨hR', hemit⟩ :=
                            h.both hR hM.1 hN.1 hstep hstep' hk hk'
                          have hmore := ih hR' (hM.2 s' hstep) (hN.2 t' hstep') hrest
                          simp only [observed, hstep, hstep', hemit, hmore]

end Unwinds

end Transition
