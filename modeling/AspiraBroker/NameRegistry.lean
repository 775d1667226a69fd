/-
**Names that lead to things, and who answers for them.**

Several parties make things, give them names, and take the names away again.  A name leads to at
most one thing.  Nothing in the names says who may take one away, so the parties have to keep to it
by themselves: a party takes away only names of things that it made and still answers for.

If they do, every name is answered for by exactly one party at all times, and no name is left behind
when nobody answers for anything.

Main definitions:

* `Registry.Book` — the names, and what each party answers for;
* `Registry.Moves` — a party makes a thing under a free name, takes its own name away, or neither;
* `Registry.Tidy` — the invariant.

Main results:

* `Registry.Tidy.moves` — **a move keeps the book tidy**;
* `Registry.Tidy.unbound` — no name is left behind.
-/

import Mathlib.Data.Multiset.AddSub
import Mathlib.Data.Multiset.ZeroCons
import Mathlib.Data.Multiset.Basic

set_option relaxedAutoImplicit false
set_option autoImplicit false

namespace Registry

universe u v w

variable {ι : Type u} {ν : Type v} {κ : Type w}

/-- Which thing a name leads to, and for which things under which names each party answers. -/
structure Book (ι : Type u) (ν : Type v) (κ : Type w) where
  bound : ν → Option κ
  charge : ι → Multiset (ν × κ)

/-- Every name is answered for, every party answers for names that lead to its things, and no thing
is answered for twice. -/
structure Tidy (b : Book ι ν κ) : Prop where
  leads : ∀ p x, x ∈ b.charge p → b.bound x.1 = some x.2
  charged : ∀ n k, b.bound n = some k → ∃ p, (n, k) ∈ b.charge p
  once : ∀ p, (b.charge p).Nodup
  alone : ∀ p q x y, x ∈ b.charge p → y ∈ b.charge q → x.2 = y.2 → p = q ∧ x = y

section Moves

variable [DecidableEq ι] [DecidableEq ν]

/-- A move of the book. -/
inductive Moves (b : Book ι ν κ) : Book ι ν κ → Prop
  | keep : Moves b b
  | claim (p : ι) {n : ν} {k : κ} (hfree : b.bound n = none)
      (hnew : ∀ q x, x ∈ b.charge q → x.2 ≠ k) :
      Moves b ⟨Function.update b.bound n (some k),
        Function.update b.charge p ((n, k) ::ₘ b.charge p)⟩
  | give (p : ι) {n : ν} {k : κ} {rest : Multiset (ν × κ)} (hours : b.charge p = (n, k) ::ₘ rest) :
      Moves b ⟨Function.update b.bound n none, Function.update b.charge p rest⟩

variable {b b' : Book ι ν κ} {p : ι} {n : ν} {k : κ}

omit [DecidableEq ι] [DecidableEq ν] in
/-- A name is answered for once. -/
theorem Tidy.eq_of_name (h : Tidy b) {q : ι} {x y : ν × κ} (hx : x ∈ b.charge p)
    (hy : y ∈ b.charge q) (hname : x.1 = y.1) : p = q ∧ x = y := by
  refine h.alone p q x y hx hy (Option.some.inj ?_)
  rw [← h.leads p x hx, ← h.leads q y hy, hname]

omit [DecidableEq ν] in
/-- Who answers for what after a thing was made. -/
theorem mem_update_cons_iff {charge : ι → Multiset (ν × κ)} {q : ι} {x y : ν × κ} :
    x ∈ Function.update charge p (y ::ₘ charge p) q ↔ x = y ∧ q = p ∨ x ∈ charge q := by
  rcases eq_or_ne q p with rfl | hq
  · simp
  · simp [hq]

/-- A thing is made under a free name. -/
theorem Tidy.claim (h : Tidy b) (p : ι) (hfree : b.bound n = none)
    (hnew : ∀ q x, x ∈ b.charge q → x.2 ≠ k) :
    Tidy ⟨Function.update b.bound n (some k),
      Function.update b.charge p ((n, k) ::ₘ b.charge p)⟩ where
  leads q x hx := by
    rcases mem_update_cons_iff.1 hx with ⟨rfl, rfl⟩ | hold
    · exact Function.update_self ..
    · have hne : x.1 ≠ n := by
        rintro rfl
        cases (h.leads q x hold).symm.trans hfree
      exact (Function.update_of_ne hne ..).trans (h.leads q x hold)
  charged m j hm := by
    change Function.update b.bound n (some k) m = some j at hm
    rcases eq_or_ne m n with rfl | hne
    · rw [Function.update_self] at hm
      obtain rfl := Option.some.inj hm
      exact ⟨p, mem_update_cons_iff.2 (.inl ⟨rfl, rfl⟩)⟩
    · rw [Function.update_of_ne hne] at hm
      obtain ⟨q, hq⟩ := h.charged m j hm
      exact ⟨q, mem_update_cons_iff.2 (.inr hq)⟩
  once q := by
    change (Function.update b.charge p _ q).Nodup
    rcases eq_or_ne q p with rfl | hqp
    · rw [Function.update_self]
      exact Multiset.nodup_cons.2 ⟨fun hmem => hnew q _ hmem rfl, h.once q⟩
    · rw [Function.update_of_ne hqp]
      exact h.once q
  alone q r x y hx hy hxy := by
    rcases mem_update_cons_iff.1 hx with ⟨rfl, rfl⟩ | holdx <;>
      rcases mem_update_cons_iff.1 hy with ⟨rfl, rfl⟩ | holdy
    · exact ⟨rfl, rfl⟩
    · exact absurd hxy.symm (hnew r y holdy)
    · exact absurd hxy (hnew q x holdx)
    · exact h.alone q r x y holdx holdy hxy

omit [DecidableEq ν] in
/-- Who answers for what after a name was taken away. -/
theorem Tidy.mem_update_iff (h : Tidy b) {rest : Multiset (ν × κ)}
    (hours : b.charge p = (n, k) ::ₘ rest) {q : ι} {x : ν × κ} :
    x ∈ Function.update b.charge p rest q ↔ x ∈ b.charge q ∧ x.1 ≠ n := by
  have hmem : (n, k) ∈ b.charge p := hours ▸ Multiset.mem_cons_self _ _
  have hnodup : ((n, k) ::ₘ rest).Nodup := hours ▸ h.once p
  rcases eq_or_ne q p with rfl | hqp
  · rw [Function.update_self]
    constructor
    · intro hx
      have hold : x ∈ b.charge q := hours ▸ Multiset.mem_cons_of_mem hx
      refine ⟨hold, fun hname => ?_⟩
      obtain ⟨-, rfl⟩ := h.eq_of_name hold hmem hname
      exact (Multiset.nodup_cons.1 hnodup).1 hx
    · rintro ⟨hold, hne⟩
      rw [hours, Multiset.mem_cons] at hold
      exact hold.resolve_left fun heq => hne (congrArg Prod.fst heq)
  · rw [Function.update_of_ne hqp]
    refine ⟨fun hx => ⟨hx, fun hname => ?_⟩, And.left⟩
    exact hqp (h.eq_of_name hx hmem hname).1

/-- A party takes away the name of a thing that it answers for. -/
theorem Tidy.give (h : Tidy b) {rest : Multiset (ν × κ)} (hours : b.charge p = (n, k) ::ₘ rest) :
    Tidy ⟨Function.update b.bound n none, Function.update b.charge p rest⟩ where
  leads q x hx := by
    obtain ⟨hold, hne⟩ := (h.mem_update_iff hours).1 hx
    exact (Function.update_of_ne hne ..).trans (h.leads q x hold)
  charged m j hm := by
    change Function.update b.bound n none m = some j at hm
    have hne : m ≠ n := by
      rintro rfl
      rw [Function.update_self] at hm
      cases hm
    rw [Function.update_of_ne hne] at hm
    obtain ⟨q, hq⟩ := h.charged m j hm
    exact ⟨q, (h.mem_update_iff hours).2 ⟨hq, hne⟩⟩
  once q := by
    change (Function.update b.charge p rest q).Nodup
    rcases eq_or_ne q p with rfl | hqp
    · rw [Function.update_self]
      exact (Multiset.nodup_cons.1 (hours ▸ h.once q)).2
    · rw [Function.update_of_ne hqp]
      exact h.once q
  alone q r x y hx hy hxy :=
    h.alone q r x y ((h.mem_update_iff hours).1 hx).1 ((h.mem_update_iff hours).1 hy).1 hxy

/-- **A move keeps the book tidy.** -/
theorem Tidy.moves (h : Tidy b) (hmove : Moves b b') : Tidy b' := by
  cases hmove with
  | keep => exact h
  | claim p hfree hnew => exact h.claim p hfree hnew
  | give p hours => exact h.give hours

omit [DecidableEq ι] [DecidableEq ν] in
/-- No name is left behind when nobody answers for anything. -/
theorem Tidy.unbound (h : Tidy b) (hnone : ∀ p, b.charge p = 0) (n : ν) : b.bound n = none := by
  cases hn : b.bound n with
  | none => rfl
  | some k =>
      obtain ⟨p, hp⟩ := h.charged n k hn
      rw [hnone p] at hp
      exact absurd hp (Multiset.notMem_zero _)

end Moves

end Registry
