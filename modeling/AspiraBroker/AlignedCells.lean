/-
**Regions of memory cut into cells.**

Allocators round sizes up to a multiple of a power of two and cut a region of memory into cells of
one size.  Addresses and sizes are natural numbers below `2 ^ 64`; the rounding is the usual one,
add and mask, and wraps around for sizes close to `2 ^ 64`.

Main definitions:

* `AlignedCells.alignUp`, `AlignedCells.cacheLines` — rounding up by adding and masking, in 64 bits;
* `AlignedCells.Region` — memory as the platform gives it;
* `AlignedCells.bytes`, `AlignedCells.cells` — the bytes of a range, and the cells of a region.

Main results:

* `AlignedCells.alignUp_eq` — the mask rounds down;
* `AlignedCells.le_alignUp` — **a size that does not wrap is rounded up**;
* `AlignedCells.cells_nodup`, `AlignedCells.cells_disjoint`, `AlignedCells.cells_subset` — the cells
  are distinct, do not overlap, and lie in the region.
-/

import Mathlib.Data.List.Nodup
import Mathlib.Data.Nat.Bitwise
import Mathlib.Order.CompletePartialOrder
import Mathlib.Order.Interval.Set.Disjoint

set_option relaxedAutoImplicit false
set_option autoImplicit false

namespace AlignedCells

/-! ### Rounding -/

/-- The size, rounded up to a multiple of `2 ^ k` by adding and masking, in 64 bits. -/
def alignUp (k x : ℕ) : ℕ := (x + (2 ^ k - 1)) % 2 ^ 64 &&& (2 ^ 64 - 2 ^ k)

/-- Masking the lowest `k` of 64 bits rounds down. -/
theorem land_mask {k y : ℕ} (hk : k ≤ 64) (hy : y < 2 ^ 64) :
    y &&& (2 ^ 64 - 2 ^ k) = y / 2 ^ k * 2 ^ k := by
  have hmask : 2 ^ 64 - 2 ^ k = (2 ^ (64 - k) - 1) * 2 ^ k := by
    rw [Nat.sub_mul, ← pow_add, Nat.sub_add_cancel hk, one_mul]
  refine Nat.eq_of_testBit_eq fun i => ?_
  rw [hmask, Nat.testBit_land, Nat.testBit_mul_two_pow, Nat.testBit_mul_two_pow,
    Nat.testBit_two_pow_sub_one, Nat.testBit_div_two_pow]
  by_cases hi : k ≤ i
  · by_cases hi' : i < 64
    · have hlt : i - k < 64 - k := by omega
      simp [hi, hlt]
    · have hbit : y.testBit i = false :=
        Nat.testBit_lt_two_pow (hy.trans_le (Nat.pow_le_pow_right (by decide) (by omega)))
      simp [hi, hbit]
  · simp [hi]

theorem alignUp_eq {k : ℕ} (hk : k ≤ 64) (x : ℕ) :
    alignUp k x = (x + (2 ^ k - 1)) % 2 ^ 64 / 2 ^ k * 2 ^ k :=
  land_mask hk (Nat.mod_lt _ (by decide))

/-- **A size that does not wrap is rounded up.** -/
theorem le_alignUp {k x : ℕ} (hk : k ≤ 64) (hx : x + (2 ^ k - 1) < 2 ^ 64) : x ≤ alignUp k x := by
  have hpos : 0 < 2 ^ k := Nat.two_pow_pos k
  have hmod := Nat.mod_lt (x + (2 ^ k - 1)) hpos
  have hdiv := Nat.div_add_mod' (x + (2 ^ k - 1)) (2 ^ k)
  rw [alignUp_eq hk, Nat.mod_eq_of_lt hx]
  omega

/-- The size in whole cache lines of 64 bytes. -/
def cacheLines (size : ℕ) : ℕ := alignUp 6 size

theorem le_cacheLines {size : ℕ} (h : size + 63 < 2 ^ 64) : size ≤ cacheLines size :=
  le_alignUp (by decide) h

theorem cacheLines_le (size : ℕ) : cacheLines size ≤ size + 63 := by
  rw [cacheLines, alignUp_eq (by decide)]
  exact (Nat.div_mul_le_self _ _).trans (Nat.mod_le _ _)

/-! ### Regions and cells -/

/-- A region of memory, as the platform gives it: it does not touch the page of the null pointer,
and the address after its last byte is still an address. -/
structure Region where
  base : ℕ
  size : ℕ
  page : 4096 ≤ base
  top : base + size < 2 ^ 64
  deriving DecidableEq

/-- The bytes of the range that starts at `p`. -/
def bytes (p size : ℕ) : Set ℕ := Set.Ico p (p + size)

/-- One range ends where the other starts, or before. -/
def Apart (p m q n : ℕ) : Prop := p + m ≤ q ∨ q + n ≤ p

instance (p m q n : ℕ) : Decidable (Apart p m q n) :=
  inferInstanceAs (Decidable (p + m ≤ q ∨ q + n ≤ p))

theorem bytes_disjoint_iff {p q m n : ℕ} :
    Disjoint (bytes p m) (bytes q n) ↔ m = 0 ∨ n = 0 ∨ p + m ≤ q ∨ q + n ≤ p := by
  unfold bytes
  rw [Set.Ico_disjoint_Ico]
  omega

theorem Apart.disjoint {p q m n : ℕ} (h : Apart p m q n) : Disjoint (bytes p m) (bytes q n) :=
  bytes_disjoint_iff.2 (.inr (.inr h))

/-- A range that is not empty lies in another one only if it lies between its ends. -/
theorem bounds_of_bytes_subset {p q m n : ℕ} (h : bytes p m ⊆ bytes q n) (hm : 0 < m) :
    q ≤ p ∧ p + m ≤ q + n := by
  obtain ⟨hlo, -⟩ := h (⟨le_rfl, by omega⟩ : p ∈ bytes p m)
  obtain ⟨-, hhi⟩ := h (⟨by omega, by omega⟩ : p + m - 1 ∈ bytes p m)
  exact ⟨hlo, by omega⟩

theorem bytes_subset {p q m n : ℕ} (hp : q ≤ p) (hm : p + m ≤ q + n) : bytes p m ⊆ bytes q n :=
  Set.Ico_subset_Ico hp hm

/-- The bytes of the region. -/
def Region.bytes (r : Region) : Set ℕ := AlignedCells.bytes r.base r.size

/-- The cell with the given number. -/
def cell (base stride i : ℕ) : ℕ := base + i * stride

/-- The first `n` cells. -/
def cells (base stride n : ℕ) : List ℕ := (List.range n).map (cell base stride)

section Cells

variable {base stride n p q : ℕ}

@[simp] theorem length_cells : (cells base stride n).length = n := by simp [cells]

theorem mem_cells : p ∈ cells base stride n ↔ ∃ i < n, cell base stride i = p := by
  simp [cells]

theorem cells_succ : cells base stride (n + 1) = cells base stride n ++ [cell base stride n] := by
  simp [cells, List.range_succ]

/-- Of two cells one ends where the other starts, or before. -/
theorem cell_apart (base stride : ℕ) {i j : ℕ} (hij : i ≠ j) :
    Apart (cell base stride i) stride (cell base stride j) stride := by
  unfold cell Apart
  rcases Nat.lt_or_gt_of_ne hij with hlt | hlt
  · have := Nat.mul_le_mul_right stride (Nat.succ_le_of_lt hlt)
    rw [Nat.succ_mul] at this
    omega
  · have := Nat.mul_le_mul_right stride (Nat.succ_le_of_lt hlt)
    rw [Nat.succ_mul] at this
    omega

theorem cell_injective (hstride : 0 < stride) : Function.Injective (cell base stride) := by
  intro i j h
  by_contra hij
  rcases cell_apart base stride hij with hlt | hlt
  · omega
  · omega

/-- The cells are distinct. -/
theorem cells_nodup (hstride : 0 < stride) : (cells base stride n).Nodup :=
  List.Nodup.map (cell_injective hstride) List.nodup_range

/-- A cell starts at the base or after it, and ends before the end of the last cell. -/
theorem cells_bounds (hp : p ∈ cells base stride n) :
    base ≤ p ∧ p + stride ≤ base + n * stride := by
  obtain ⟨i, hi, rfl⟩ := mem_cells.1 hp
  have := Nat.mul_le_mul_right stride (Nat.succ_le_of_lt hi)
  rw [Nat.succ_mul] at this
  unfold cell
  omega

/-- Different cells do not overlap. -/
theorem cells_disjoint {w w' : ℕ} (hw : w ≤ stride) (hw' : w' ≤ stride)
    (hp : p ∈ cells base stride n) (hq : q ∈ cells base stride n) (hpq : p ≠ q) :
    Disjoint (bytes p w) (bytes q w') := by
  obtain ⟨i, -, rfl⟩ := mem_cells.1 hp
  obtain ⟨j, -, rfl⟩ := mem_cells.1 hq
  have hij : i ≠ j := fun h => hpq (congrArg _ h)
  refine Apart.disjoint ?_
  rcases cell_apart base stride hij with hlt | hlt
  · exact .inl (by omega)
  · exact .inr (by omega)

/-- The cells lie in the region that has room for them. -/
theorem cells_subset {w size : ℕ} (hw : w ≤ stride) (hsize : n * stride ≤ size)
    (hp : p ∈ cells base stride n) : bytes p w ⊆ bytes base size := by
  obtain ⟨hlo, hhi⟩ := cells_bounds hp
  exact bytes_subset hlo (by omega)

end Cells

end AlignedCells
