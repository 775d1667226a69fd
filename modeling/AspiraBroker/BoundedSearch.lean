/-
**Counting loops that return from their body.**

A loop `for (i = 0; i < n; i++)` whose body either returns a value or goes on is a search for the
first index at which the body returns.  This module names that search and says what it finds, so
that a proof about such a loop is a proof about one index and the ones before it.

Main definitions:

* `Search.firstSome` — the loop.

Main results:

* `Search.firstSome_eq_some_iff` — what the loop returns;
* `Search.firstSome_eq_none_iff` — when the loop ends without returning.
-/

import Mathlib.Data.List.Range

set_option relaxedAutoImplicit false
set_option autoImplicit false

namespace Search

universe u

variable {β : Type u}

/-- The value that the body `f` returns at the first of the indices `0, …, n - 1` at which it
returns one. -/
def firstSome (n : ℕ) (f : ℕ → Option β) : Option β := (List.range n).findSome? f

theorem firstSome_succ (n : ℕ) (f : ℕ → Option β) :
    firstSome (n + 1) f = (firstSome n f).or (f n) := by
  rw [firstSome, List.range_succ, List.findSome?_append]
  cases h : f n with
  | none => simp [firstSome, h]
  | some b => simp [firstSome, h]

/-- **The loop ends without returning** exactly when the body returns at no index. -/
theorem firstSome_eq_none_iff {n : ℕ} {f : ℕ → Option β} :
    firstSome n f = none ↔ ∀ i < n, f i = none := by
  simp [firstSome]

/-- **The loop returns what the body returns at the first index** at which it returns anything. -/
theorem firstSome_eq_some_iff {n : ℕ} {f : ℕ → Option β} {b : β} :
    firstSome n f = some b ↔ ∃ i < n, f i = some b ∧ ∀ j < i, f j = none := by
  induction n with
  | zero => simp [firstSome]
  | succ n ih =>
      rw [firstSome_succ, Option.or_eq_some_iff, ih, firstSome_eq_none_iff]
      constructor
      · rintro (⟨i, hi, hf, hbefore⟩ | ⟨hnone, hf⟩)
        · exact ⟨i, Nat.lt_succ_of_lt hi, hf, hbefore⟩
        · exact ⟨n, Nat.lt_succ_self n, hf, hnone⟩
      · rintro ⟨i, hi, hf, hbefore⟩
        rcases Nat.lt_succ_iff_lt_or_eq.1 hi with hi | rfl
        · exact Or.inl ⟨i, hi, hf, hbefore⟩
        · exact Or.inr ⟨hbefore, hf⟩

end Search
