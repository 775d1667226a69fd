/-
**Bump pointers in 64 bits.**

A bump allocator keeps an offset into its memory.  A request is rounded up to a multiple of `2 ^ k`,
and the offset moves by that much, unless it would then lie behind the capacity:

```
size = (size + (2 ^ k - 1)) & ~(2 ^ k - 1)
if offset + size > capacity then refuse
offset = offset + size
```

In 64 bits both the rounding and the sum can wrap around, and what wraps around is small enough to
pass the test.  The two cases are one: without wrapping, the request rounded up would lead the
offset to `2 ^ 64` or beyond.

Main definitions:

* `BumpPointer.roundUp` — rounding up, without wrapping;
* `BumpPointer.stop` — the offset that the code compares with the capacity;
* `BumpPointer.Granted` — the request has got as much as it asked for, inside of the memory;
* `BumpPointer.Bumps`, `BumpPointer.Honours` — an allocator that works like this, and one that keeps
  its promises.

Main results:

* `BumpPointer.alignUp_eq_roundUp` — adding and masking is rounding up modulo `2 ^ 64`;
* `BumpPointer.granted_iff` — **a request that passes the test gets what it asked for exactly if
  nothing wraps around**;
* `BumpPointer.Bumps.honours_iff` — the same for an allocator.
-/

import AspiraBroker.AlignedCells

set_option relaxedAutoImplicit false
set_option autoImplicit false

namespace BumpPointer

open AlignedCells

/-! ### Rounding up -/

/-- The least multiple of `2 ^ k` that is not smaller. -/
def roundUp (k x : ℕ) : ℕ := (x + (2 ^ k - 1)) / 2 ^ k * 2 ^ k

theorem le_roundUp (k x : ℕ) : x ≤ roundUp k x := by
  have hpos : 0 < 2 ^ k := Nat.two_pow_pos k
  have hmod := Nat.mod_lt (x + (2 ^ k - 1)) hpos
  have hdiv := Nat.div_add_mod' (x + (2 ^ k - 1)) (2 ^ k)
  unfold roundUp
  omega

@[simp] theorem roundUp_zero (k : ℕ) : roundUp k 0 = 0 := by
  have hpos : 0 < 2 ^ k := Nat.two_pow_pos k
  rw [roundUp, Nat.div_eq_of_lt (by omega), Nat.zero_mul]

/-- A multiple of `2 ^ k` stays as it is. -/
theorem roundUp_mul (k q : ℕ) : roundUp k (q * 2 ^ k) = q * 2 ^ k := by
  have hpos : 0 < 2 ^ k := Nat.two_pow_pos k
  rw [roundUp, Nat.add_comm, Nat.add_mul_div_right _ _ hpos, Nat.div_eq_of_lt (by omega),
    Nat.zero_add]

/-- No 64-bit size is rounded up beyond `2 ^ 64`. -/
theorem roundUp_le {k x : ℕ} (hk : k ≤ 64) (hx : x < 2 ^ 64) : roundUp k x ≤ 2 ^ 64 := by
  have hpos : 0 < 2 ^ k := Nat.two_pow_pos k
  have hsplit : 2 ^ 64 = 2 ^ (64 - k) * 2 ^ k := by rw [← pow_add, Nat.sub_add_cancel hk]
  have hlt : (x + (2 ^ k - 1)) / 2 ^ k < 2 ^ (64 - k) + 1 := by
    rw [Nat.div_lt_iff_lt_mul hpos, Nat.succ_mul, ← hsplit]
    omega
  rw [hsplit]
  exact Nat.mul_le_mul_right _ (Nat.le_of_lt_succ hlt)

/-- **Adding and masking in 64 bits is rounding up modulo `2 ^ 64`.** -/
theorem alignUp_eq_roundUp {k : ℕ} (hk : k ≤ 64) (x : ℕ) : alignUp k x = roundUp k x % 2 ^ 64 := by
  have hsplit : 2 ^ 64 = 2 ^ k * 2 ^ (64 - k) := by rw [← pow_add, Nat.add_sub_cancel' hk]
  rw [alignUp_eq hk, roundUp, hsplit, Nat.mod_mul_right_div_self, Nat.mul_comm _ (2 ^ k),
    Nat.mul_comm _ (2 ^ k), Nat.mul_mod_mul_left]

/-! ### The bump -/

/-- The offset after the request, as the code computes it. -/
def stop (k offset size : ℕ) : ℕ := (offset + alignUp k size) % 2 ^ 64

theorem stop_eq {k : ℕ} (hk : k ≤ 64) (offset size : ℕ) :
    stop k offset size = (offset + roundUp k size) % 2 ^ 64 := by
  rw [stop, alignUp_eq_roundUp hk, Nat.add_mod_mod]

/-- The request lies inside of the memory, and the offset has moved behind it. -/
structure Granted (capacity offset size offset' : ℕ) : Prop where
  fits : offset + size ≤ capacity
  moved : offset + size ≤ offset'
  inside : offset' ≤ capacity

section Bump

variable {k capacity offset size : ℕ} (hk : k ≤ 64)

include hk

/-- Without wrapping the offset moves by at least the size. -/
theorem granted_of_lt (hwrap : offset + roundUp k size < 2 ^ 64)
    (hserved : stop k offset size ≤ capacity) :
    Granted capacity offset size (stop k offset size) := by
  have hle := le_roundUp k size
  rw [stop_eq hk, Nat.mod_eq_of_lt hwrap] at hserved ⊢
  exact ⟨by omega, by omega, hserved⟩

/-- With wrapping the offset has not moved on. -/
theorem stop_le_of_wrap (hoffset : offset < 2 ^ 64) (hsize : size < 2 ^ 64)
    (hwrap : 2 ^ 64 ≤ offset + roundUp k size) : stop k offset size ≤ offset := by
  have hle := roundUp_le hk hsize
  rw [stop_eq hk]
  omega

/-- **A request that passes the test gets what it asked for exactly if nothing wraps around.** -/
theorem granted_iff (hoffset : offset < 2 ^ 64) (hsize : size < 2 ^ 64) :
    (stop k offset size ≤ capacity → Granted capacity offset size (stop k offset size)) ↔
      capacity < stop k offset size ∨ offset + roundUp k size < 2 ^ 64 := by
  constructor
  · intro h
    by_contra hcon
    rw [not_or, Nat.not_lt, Nat.not_lt] at hcon
    obtain ⟨hserved, hwrap⟩ := hcon
    have hmoved := (h hserved).moved
    have hstop := stop_le_of_wrap hk hoffset hsize hwrap
    -- only a request of nothing could be satisfied, and it does not wrap around
    obtain rfl : size = 0 := by omega
    rw [roundUp_zero] at hwrap
    omega
  · rintro (hfull | hwrap) hserved
    · omega
    · exact granted_of_lt hk hwrap hserved

end Bump

/-! ### Allocators -/

section Allocators

universe u v

variable {σ : Type u} {π : Type v}

/-- The call with the result `r` bumps the offset of the allocator `s`, or refuses. -/
structure Bumps (k capacity : ℕ) (offset : σ → ℕ) (s : σ) (size : ℕ) (r : σ × Option π) :
    Prop where
  refused : capacity < stop k (offset s) size → r = (s, none)
  served : stop k (offset s) size ≤ capacity → r.2 ≠ none ∧ offset r.1 = stop k (offset s) size

/-- The call hands out as much as it was asked for, inside of the memory, or hands out nothing and
leaves the allocator as it is. -/
def Honours (capacity : ℕ) (offset : σ → ℕ) (s : σ) (size : ℕ) (r : σ × Option π) : Prop :=
  (r.2 ≠ none → Granted capacity (offset s) size (offset r.1)) ∧ (r.2 = none → r.1 = s)

/-- **A bump allocator keeps its promises exactly if nothing wraps around**, or if the wrapped sum
is refused. -/
theorem Bumps.honours_iff {k capacity : ℕ} {offset : σ → ℕ} {s : σ} {size : ℕ} {r : σ × Option π}
    (h : Bumps k capacity offset s size r) (hk : k ≤ 64) (hoffset : offset s < 2 ^ 64)
    (hsize : size < 2 ^ 64) :
    Honours capacity offset s size r ↔
      capacity < (offset s + roundUp k size) % 2 ^ 64 ∨ offset s + roundUp k size < 2 ^ 64 := by
  rw [← stop_eq hk, ← granted_iff hk hoffset hsize]
  by_cases hfull : capacity < stop k (offset s) size
  · have hr := h.refused hfull
    refine iff_of_true ⟨fun hne => ?_, fun _ => ?_⟩ fun hserved => ?_
    · exact absurd (congrArg Prod.snd hr) hne
    · exact congrArg Prod.fst hr
    · omega
  · obtain ⟨hne, hmoved⟩ := h.served (Nat.le_of_not_lt hfull)
    rw [← hmoved]
    constructor
    · intro hhonours _
      exact hhonours.1 hne
    · intro hgranted
      refine ⟨fun _ => hgranted ?_, fun hnone => absurd hnone hne⟩
      rw [hmoved]
      exact Nat.le_of_not_lt hfull

end Allocators

end BumpPointer
