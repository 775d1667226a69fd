/-
**Counting the slots of a table.**

A component that keeps a counter beside a table of slots — how many are taken, how many are open —
changes one slot and the counter together.  This module says what the change of one slot does to the
number of slots of a kind.

Main definitions:

* `Counting.count` — the number of slots of a kind.

Main results:

* `Counting.count_update` — **what the change of one slot does to the count**, and
  `Counting.count_update_gain`, `Counting.count_update_loss` — if the slot becomes one of the kind,
  or stops being one;
* `Counting.count_le`, `Counting.count_congr` — the count is bounded by the number of slots, and
  depends only on their kinds;
* `Counting.count_succ`, `Counting.count_mono`, `Counting.count_or` — more slots, and two kinds
  together.
-/

import Mathlib.Algebra.BigOperators.Group.Finset.Basic

set_option relaxedAutoImplicit false
set_option autoImplicit false

namespace Counting

universe u

variable {γ : Type u} {n : ℕ} {t : ℕ → γ}

/-- The number of slots of a kind, among the first `n` of a table. -/
def count (p : γ → Bool) (n : ℕ) (t : ℕ → γ) : ℕ :=
  ((Finset.range n).filter fun i => p (t i) = true).card

/-- **What the change of one slot does to the count.** -/
theorem count_update (p : γ → Bool) {i : ℕ} (hi : i < n) (c : γ) :
    count p n (Function.update t i c) + (if p (t i) = true then 1 else 0) =
      count p n t + (if p c = true then 1 else 0) := by
  have hmem : i ∈ Finset.range n := Finset.mem_range.2 hi
  have hrest : ((Finset.range n).erase i).filter (fun j => p (Function.update t i c j) = true) =
      ((Finset.range n).erase i).filter fun j => p (t j) = true := by
    refine Finset.filter_congr fun j hj => ?_
    rw [Function.update_of_ne (Finset.ne_of_mem_erase hj)]
  have hsplit : ∀ s : ℕ → γ, count p n s =
      (((Finset.range n).erase i).filter fun j => p (s j) = true).card +
        (if p (s i) = true then 1 else 0) := by
    intro s
    rw [count, ← Finset.insert_erase hmem, Finset.filter_insert]
    split
    · rw [Finset.card_insert_of_notMem (by simp)]
      simp
    · simp
  rw [hsplit (Function.update t i c), hsplit t, hrest, Function.update_self]
  omega

/-- A slot becomes one of the kind. -/
theorem count_update_gain {p : γ → Bool} {i : ℕ} {c : γ} (hi : i < n) (hold : p (t i) = false)
    (hnew : p c = true) : count p n (Function.update t i c) = count p n t + 1 := by
  have h := count_update (t := t) p hi c
  rwa [hold, if_neg Bool.false_ne_true, if_pos hnew, Nat.add_zero] at h

/-- A slot of the kind becomes one of another kind. -/
theorem count_update_loss {p : γ → Bool} {i : ℕ} {c : γ} (hi : i < n) (hold : p (t i) = true)
    (hnew : p c = false) : count p n (Function.update t i c) + 1 = count p n t := by
  have h := count_update (t := t) p hi c
  rwa [hnew, if_neg Bool.false_ne_true, if_pos hold, Nat.add_zero] at h

theorem count_le (p : γ → Bool) : count p n t ≤ n := by
  have h := Finset.card_filter_le (Finset.range n) fun i => p (t i) = true
  rwa [Finset.card_range] at h

/-- The count depends only on the kinds of the slots. -/
theorem count_congr {p : γ → Bool} {t' : ℕ → γ} (h : ∀ i, p (t' i) = p (t i)) :
    count p n t' = count p n t := by
  simp only [count, h]

theorem count_succ (p : γ → Bool) :
    count p (n + 1) t = count p n t + (if p (t n) = true then 1 else 0) := by
  rw [count, Finset.range_add_one, Finset.filter_insert]
  split
  · rw [Finset.card_insert_of_notMem (by simp), count]
  · rw [count, Nat.add_zero]

theorem count_mono (p : γ → Bool) {a b : ℕ} (hab : a ≤ b) : count p a t ≤ count p b t :=
  Finset.card_le_card (Finset.filter_subset_filter _ (Finset.range_subset_range.2 hab))

/-- Two kinds that exclude each other are counted one after the other. -/
theorem count_or {p q : γ → Bool} (h : ∀ c, p c = true → q c = false) :
    count (fun c => p c || q c) n t = count p n t + count q n t := by
  induction n with
  | zero => rfl
  | succ n ih =>
      rw [count_succ, count_succ, count_succ, ih]
      cases hp : p (t n) with
      | true =>
          simp only [h _ hp, Bool.or_false, if_true, Bool.false_eq_true, if_false]
          omega
      | false =>
          simp only [Bool.false_or, Bool.false_eq_true, if_false]
          omega

end Counting
