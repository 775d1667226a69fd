/-
**Rings of a power-of-two capacity, indexed by counters that never wrap.**

A ring of `N` slots keeps its two cursors as masked indices, which wrap around.  Proofs about it
are easier against the *counters* behind the cursors: the number of elements ever put in and the
number ever taken out.  Element number `c` lives in slot `c % N`, two elements fewer than `N` apart
never share a slot, and the masked cursors are the counters modulo `N`.  This module is the
arithmetic of that correspondence.

Main definitions:

* `Ring.masked` — the slot of a counter, by masking;
* `Ring.Capacity` — a power of two, at least two, with its mask;
* `Ring.span` — the number of slots from one index up to another;
* `Ring.Stored` — element number `c` of a list sits in its slot.

Main results:

* `Ring.masked_eq`, `Ring.Capacity.next_index` — masking is reduction modulo the capacity;
* `Ring.index_inj`, `Ring.eq_of_masked_eq` — **counters less than a lap apart have different
  slots**;
* `Ring.Capacity.next_eq_iff_full` — the one-slot-free full test on masked indices, read on the
  counters;
* `Ring.exists_last_lap`, `Ring.span_mod` — which counters are behind a slot, and how many slots lie
  between two cursors;
* `Ring.Stored.update_of_ne`, `Ring.stored_update_self` — what a write to a slot does.
-/

import Mathlib.Data.List.Basic
import Mathlib.Data.Nat.ModEq
import Mathlib.Logic.Function.Basic

set_option relaxedAutoImplicit false
set_option autoImplicit false

namespace Ring

/-! ### Masking -/

/-- The slot of a counter in a ring of `2 ^ k` slots. -/
def masked (k c : ℕ) : ℕ := c &&& (2 ^ k - 1)

/-- Masking is reduction modulo the number of slots. -/
theorem masked_eq (k c : ℕ) : masked k c = c % 2 ^ k := Nat.and_two_pow_sub_one_eq_mod c k

/-- A counter has the slot of the one a lap before. -/
theorem masked_lap (k c : ℕ) : masked k (c + 2 ^ k) = masked k c := by
  rw [masked_eq, masked_eq, Nat.add_mod_right]

/-! ### Capacities -/

/-- A ring capacity: a power of two that is at least two. -/
structure Capacity where
  /-- The exponent. -/
  log : ℕ
  /-- There are at least two slots. -/
  log_pos : 1 ≤ log

/-- The capacity of `2 ^ (n + 1)` slots. -/
def Capacity.ofSucc (n : ℕ) : Capacity := ⟨n + 1, Nat.le_add_left 1 n⟩

namespace Capacity

variable (N : Capacity)

/-- The number of slots. -/
def slots : ℕ := 2 ^ N.log

/-- The mask that reduces a counter to a slot. -/
def mask : ℕ := N.slots - 1

theorem two_le_slots : 2 ≤ N.slots :=
  le_trans (by decide : 2 ≤ 2 ^ 1) (Nat.pow_le_pow_right (by decide) N.log_pos)

theorem slots_pos : 0 < N.slots := lt_of_lt_of_le (by decide) N.two_le_slots

theorem mask_add_one : N.mask + 1 = N.slots := Nat.sub_add_cancel N.slots_pos

/-- Masking is reduction modulo the number of slots. -/
theorem and_mask (x : ℕ) : x &&& N.mask = x % N.slots := masked_eq N.log x

theorem index_lt (c : ℕ) : c % N.slots < N.slots := Nat.mod_lt _ N.slots_pos

/-- Advancing a masked index is advancing the counter behind it. -/
theorem next_index (c : ℕ) : (c % N.slots + 1) &&& N.mask = (c + 1) % N.slots := by
  rw [N.and_mask, Nat.mod_add_mod]

end Capacity

/-! ### Counters and slots -/

/-- **Counters less than a lap apart have different slots.** -/
theorem index_inj {n a b : ℕ} (hab : a ≤ b) (hlap : b < a + n) (h : a % n = b % n) : a = b := by
  have hdvd : n ∣ b - a := (Nat.modEq_iff_dvd' hab).1 h
  rcases Nat.eq_zero_or_pos (b - a) with h0 | hpos
  · omega
  · have := Nat.le_of_dvd hpos hdvd
    omega

/-- Of the counters of the last lap no two have the same slot. -/
theorem eq_of_masked_eq {k a b hi : ℕ} (h : masked k a = masked k b) (ha : a < hi) (hb : b < hi)
    (ha' : hi ≤ a + 2 ^ k) (hb' : hi ≤ b + 2 ^ k) : a = b := by
  rw [masked_eq, masked_eq] at h
  rcases Nat.le_total a b with hle | hle
  · exact index_inj hle (by omega) h
  · exact (index_inj hle (by omega) h.symm).symm

/-- On a ring with at most one element less than it has slots, the cursors meet exactly when the
ring is empty. -/
theorem Capacity.index_eq_iff_empty (N : Capacity) {lo hi : ℕ} (hle : lo ≤ hi)
    (hroom : hi < lo + N.slots) : lo % N.slots = hi % N.slots ↔ lo = hi :=
  ⟨index_inj hle hroom, fun h => by rw [h]⟩

/-- The full test that leaves one slot free: the index after the tail is the head exactly when the
ring holds one element less than it has slots. -/
theorem Capacity.next_eq_iff_full (N : Capacity) {lo hi : ℕ} (hle : lo ≤ hi)
    (hroom : hi < lo + N.slots) : (hi + 1) % N.slots = lo % N.slots ↔ hi + 1 = lo + N.slots := by
  constructor
  · intro h
    by_contra hne
    have hlo : lo = hi + 1 := index_inj (by omega) (by omega) h.symm
    omega
  · intro h
    rw [h, Nat.add_mod_right]

/-- Every slot that was ever used was used in the last lap. -/
theorem exists_last_lap {n c hi : ℕ} (hn : 0 < n) (hc : c < hi) :
    ∃ b, b < hi ∧ hi ≤ b + n ∧ b % n = c % n := by
  obtain ⟨d, rfl⟩ := Nat.exists_eq_add_of_lt hc
  have hd := Nat.mod_add_div d n
  have hlt := Nat.mod_lt d hn
  refine ⟨c + n * (d / n), by omega, by omega, Nat.add_mul_mod_self_left _ _ _⟩

/-- The number of slots from one index of a ring of `n` slots up to another. -/
def span (n lo hi : ℕ) : ℕ := (hi + n - lo) % n

/-- Between two cursors less than a lap apart lies the difference of the counters. -/
theorem span_mod {n lo hi : ℕ} (hle : lo ≤ hi) (hlap : hi < lo + n) :
    span n (lo % n) (hi % n) = hi - lo := by
  obtain ⟨d, rfl⟩ := Nat.exists_eq_add_of_le hle
  have hd : d < n := by omega
  have hlo : lo % n < n := Nat.mod_lt _ (by omega)
  rw [span, ← Nat.mod_add_mod, Nat.add_sub_cancel_left]
  rcases Nat.lt_or_ge (lo % n + d) n with hin | hout
  · rw [Nat.mod_eq_of_lt hin, show lo % n + d + n - lo % n = d + n by omega, Nat.add_mod_right,
      Nat.mod_eq_of_lt hd]
  · have hwrap : (lo % n + d - n) % n = lo % n + d - n := Nat.mod_eq_of_lt (by omega)
    rw [Nat.mod_eq_sub_mod hout, hwrap, show lo % n + d - n + n - lo % n = d by omega,
      Nat.mod_eq_of_lt hd]

/-! ### Elements in their slots -/

section Stored

variable {α : Type*} {n : ℕ} {buf : ℕ → α} {xs : List α} {c : ℕ}

/-- Element number `c` of `xs` sits in its slot of the ring buffer `buf` of `n` slots. -/
def Stored (n : ℕ) (buf : ℕ → α) (xs : List α) (c : ℕ) : Prop := xs[c]? = some (buf (c % n))

/-- Writing another slot leaves the element alone. -/
theorem Stored.update_of_ne (h : Stored n buf xs c) {i : ℕ} (hi : c % n ≠ i) (x : α) :
    Stored n (Function.update buf i x) xs c := by
  rw [Stored, Function.update_of_ne hi]
  exact h

/-- Writing the element's own slot stores it. -/
theorem stored_update_self {x : α} (h : xs[c]? = some x) :
    Stored n (Function.update buf (c % n) x) xs c := by
  rw [Stored, Function.update_self]
  exact h

/-- Elements that come later do not displace the ones before them. -/
theorem Stored.append (h : Stored n buf xs c) (ys : List α) : Stored n buf (xs ++ ys) c := by
  obtain ⟨hc, he⟩ := List.getElem?_eq_some_iff.1 h
  rw [Stored, List.getElem?_append_left hc]
  exact h

end Stored

end Ring
