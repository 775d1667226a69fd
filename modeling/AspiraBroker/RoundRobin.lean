/-
**Taking turns.**

A number of parties take turns, in a circle; `c i` is what party `i` has got so far.  If only the
party whose turn it is ever gets something, one unit a turn, then the counts stay *level*: seen from
the party whose turn it is, they do not decrease around the circle, and the last is at most one more
than the first.  A party that has reached a common bound when its turn comes is then not alone: all
have reached it.

Units may also be given back, by any party, as long as the counts stay level.  That is so if it is
given back by a party that has got at least as much as every other one, and more than those whose
turn comes before its own.

Main definitions:

* `RoundRobin.Level` — the counts are level, seen from the party whose turn it is;
* `RoundRobin.Returns` — who may give something back.

Main results:

* `RoundRobin.Level.take`, `RoundRobin.Level.give` — **taking in turn and giving back in turn keep
  the counts level**;
* `RoundRobin.Level.eq_of_max` — a bound that the party whose turn it is has reached, all have
  reached.
-/

import Mathlib.Algebra.Group.Fin.Basic
import Mathlib.Logic.Function.Basic
import Mathlib.Order.Fin.Basic

set_option relaxedAutoImplicit false
set_option autoImplicit false

namespace RoundRobin

variable {n : ℕ} {t i j : Fin (n + 1)} {c : Fin (n + 1) → ℕ}

/-- Seen from the party `t`, the counts do not decrease around the circle, and none is more than
one larger than another before it.  The number of turns until party `i` is up is `i - t`. -/
def Level (t : Fin (n + 1)) (c : Fin (n + 1) → ℕ) : Prop :=
  ∀ i j, i - t ≤ j - t → c i ≤ c j ∧ c j ≤ c i + 1

/-- Party `j` has got at least as much as every other one, and more than those whose turn comes
before its own. -/
def Returns (t : Fin (n + 1)) (c : Fin (n + 1) → ℕ) (j : Fin (n + 1)) : Prop :=
  ∀ i, c i ≤ c j ∧ (i - t < j - t → c i < c j)

instance (t : Fin (n + 1)) (c : Fin (n + 1) → ℕ) (j : Fin (n + 1)) : Decidable (Returns t c j) :=
  inferInstanceAs (Decidable (∀ i, c i ≤ c j ∧ (i - t < j - t → c i < c j)))

/-- Equal counts are level from everywhere. -/
theorem level_of_eq {k : ℕ} (h : ∀ i, c i = k) : Level t c := by
  intro i j _
  rw [h i, h j]
  exact ⟨le_rfl, Nat.le_succ k⟩

/-- What the party whose turn it is has got is least. -/
theorem Level.le (h : Level t c) (i : Fin (n + 1)) : c t ≤ c i ∧ c i ≤ c t + 1 :=
  h t i (by rw [sub_self]; exact Fin.zero_le _)

/-- **A bound that the party whose turn it is has reached, all have reached.** -/
theorem Level.eq_of_max (h : Level t c) {k : ℕ} (hmax : ∀ i, c i ≤ k) (hk : c t = k)
    (i : Fin (n + 1)) : c i = k :=
  le_antisymm (hmax i) (hk ▸ (h.le i).1)

/-- After a turn a party is one turn nearer, and the one that had it is the farthest. -/
theorem val_sub_succ (t i : Fin (n + 1)) :
    (i - (t + 1) : Fin (n + 1)).val = if i = t then n else (i - t).val - 1 := by
  rw [← sub_sub, Fin.coe_sub_one]
  simp only [sub_eq_zero]

theorem val_sub_ne_zero (hi : i ≠ t) : (i - t).val ≠ 0 := by
  rw [ne_eq, Fin.val_eq_zero_iff, sub_eq_zero]
  exact hi

/-- **Taking in turn keeps the counts level.** -/
theorem Level.take (h : Level t c) : Level (t + 1) (Function.update c t (c t + 1)) := by
  intro i j hij
  by_cases hi : i = t
  · by_cases hj : j = t
    · rw [hi, hj]
      exact ⟨le_rfl, Nat.le_succ _⟩
    · -- the party that had its turn comes after all others
      rw [hi, Fin.le_def, val_sub_succ, val_sub_succ, if_pos rfl, if_neg hj] at hij
      have hlt := (j - t).isLt
      have hpos := val_sub_ne_zero hj
      omega
  · by_cases hj : j = t
    · rw [hj, Function.update_self, Function.update_of_ne hi]
      obtain ⟨hlo, hhi⟩ := h.le i
      exact ⟨hhi, Nat.succ_le_succ hlo⟩
    · rw [Function.update_of_ne hi, Function.update_of_ne hj]
      rw [Fin.le_def, val_sub_succ, val_sub_succ, if_neg hi, if_neg hj] at hij
      have hpos := val_sub_ne_zero hi
      have hpos' := val_sub_ne_zero hj
      exact h i j (Fin.le_def.2 (by omega))

/-- **Giving back in turn keeps the counts level.** -/
theorem Level.give (h : Level t c) (hj : Returns t c j) {k : ℕ} (hk : c j = k + 1) :
    Level t (Function.update c j k) := by
  intro a b hab
  by_cases ha : a = j
  · by_cases hb : b = j
    · rw [ha, hb]
      exact ⟨le_rfl, Nat.le_succ _⟩
    · rw [ha, Function.update_self, Function.update_of_ne hb]
      rw [ha] at hab
      have hle := (h j b hab).1
      have hmax := (hj b).1
      omega
  · by_cases hb : b = j
    · rw [hb, Function.update_self, Function.update_of_ne ha]
      rw [hb] at hab
      have hne : a - t ≠ j - t := fun heq => ha (sub_left_injective heq)
      have hless := (hj a).2 (lt_of_le_of_ne hab hne)
      have hle := (h a j hab).2
      omega
    · rw [Function.update_of_ne ha, Function.update_of_ne hb]
      exact h a b hab

end RoundRobin
