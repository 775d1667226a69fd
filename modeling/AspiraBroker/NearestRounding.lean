/-
**Rounding to a number of binary digits.**

A floating-point operation returns the exact result rounded to the nearest number with `p` binary
digits, and of two that are equally near, to the one whose last digit is even.  The exponent is not
bounded here, so the rounding is that of a format as long as nothing overflows and nothing is
subnormal.

What computations use of it are three facts: the relative error is at most `2 ^ -p`, larger numbers
are rounded to larger ones, and small integers are not changed.

Main definitions:

* `Rounding.nearest` — the nearest integer, ties to even;
* `Rounding.toPrecision` — the nearest number with `p` digits;
* `Rounding.IsRounding` — the three facts.

Main results:

* `Rounding.isRounding_toPrecision` — **rounding to the nearest number has them**.
-/

import Mathlib.Data.Int.Log
import Mathlib.Data.Rat.Floor
import Mathlib.Tactic.Linarith
import Mathlib.Tactic.FieldSimp
import Mathlib.Tactic.Positivity

set_option relaxedAutoImplicit false
set_option autoImplicit false

namespace Rounding

/-! ### The nearest integer -/

/-- The nearest integer, and of two the even one. -/
def nearest (x : ℚ) : ℤ :=
  if (⌊x + 1 / 2⌋ : ℚ) = x + 1 / 2 ∧ ⌊x + 1 / 2⌋ % 2 ≠ 0 then ⌊x + 1 / 2⌋ - 1 else ⌊x + 1 / 2⌋

theorem abs_nearest_sub_le (x : ℚ) : |(nearest x : ℚ) - x| ≤ 1 / 2 := by
  have hle := Int.floor_le (x + 1 / 2)
  have hlt := Int.lt_floor_add_one (x + 1 / 2)
  rw [abs_le]
  unfold nearest
  split
  case isTrue htie =>
    push_cast
    constructor <;> linarith [htie.1]
  case isFalse => constructor <;> linarith

theorem nearest_le_floor (x : ℚ) : nearest x ≤ ⌊x + 1 / 2⌋ := by
  unfold nearest
  split <;> omega

theorem floor_le_nearest (x : ℚ) : ⌊x + 1 / 2⌋ - 1 ≤ nearest x := by
  unfold nearest
  split <;> omega

theorem nearest_mono {x y : ℚ} (hxy : x ≤ y) : nearest x ≤ nearest y := by
  have hfloor : ⌊x + 1 / 2⌋ ≤ ⌊y + 1 / 2⌋ := Int.floor_mono (by linarith)
  rcases hfloor.lt_or_eq with hlt | heq
  · have hx := nearest_le_floor x
    have hy := floor_le_nearest y
    omega
  · -- both are next to the same integer: if `y` is a tie, then so is `x`
    unfold nearest
    rw [heq]
    split
    · split <;> omega
    · next hx =>
        rw [if_neg]
        rintro ⟨hy, hodd⟩
        refine hx ⟨le_antisymm ?_ (by linarith), hodd⟩
        have := Int.floor_le (x + 1 / 2)
        rw [heq] at this
        linarith

theorem nearest_intCast (n : ℤ) : nearest n = n := by
  have hfloor : ⌊(n : ℚ) + 1 / 2⌋ = n := by
    rw [Int.floor_eq_iff]
    constructor <;> linarith
  unfold nearest
  rw [hfloor, if_neg]
  rintro ⟨h, -⟩
  linarith

/-- Of two integers that are equally near, it is the even one. -/
theorem nearest_even {x : ℚ} (h : |(nearest x : ℚ) - x| = 1 / 2) : nearest x % 2 = 0 := by
  have hlt := Int.lt_floor_add_one (x + 1 / 2)
  unfold nearest at h ⊢
  split
  case isTrue htie => omega
  case isFalse hnot =>
    rw [if_neg hnot] at h
    by_contra hodd
    refine hnot ⟨?_, hodd⟩
    rcases (abs_eq (by norm_num)).1 h with h | h <;> linarith

/-- These two facts say which integer it is. -/
theorem nearest_eq {x : ℚ} {n : ℤ} (h : |(n : ℚ) - x| ≤ 1 / 2)
    (heven : |(n : ℚ) - x| = 1 / 2 → n % 2 = 0) : nearest x = n := by
  have hnear := abs_nearest_sub_le x
  have hle := abs_le.1 h
  have hle' := abs_le.1 hnear
  by_contra hne
  -- two integers at a distance of at most one half are next to each other, and `x` is halfway
  rcases lt_or_gt_of_ne hne with hlt | hlt
  · have hstep : (nearest x : ℚ) + 1 ≤ n := by exact_mod_cast hlt
    have h1 := nearest_even (x := x) (by rw [abs_eq (by norm_num)]; exact .inr (by linarith))
    have h2 := heven (by rw [abs_eq (by norm_num)]; exact .inl (by linarith))
    have hnext : n ≤ nearest x + 1 := by
      have : (n : ℚ) ≤ nearest x + 1 := by linarith
      exact_mod_cast this
    omega
  · have hstep : (n : ℚ) + 1 ≤ nearest x := by exact_mod_cast hlt
    have h1 := nearest_even (x := x) (by rw [abs_eq (by norm_num)]; exact .inl (by linarith))
    have h2 := heven (by rw [abs_eq (by norm_num)]; exact .inr (by linarith))
    have hnext : nearest x ≤ n + 1 := by
      have : (nearest x : ℚ) ≤ n + 1 := by linarith
      exact_mod_cast this
    omega

theorem nearest_neg (x : ℚ) : nearest (-x) = -nearest x := by
  have hflip : |((-nearest x : ℤ) : ℚ) - -x| = |(nearest x : ℚ) - x| := by
    rw [← abs_neg]
    push_cast
    ring_nf
  refine nearest_eq (hflip.le.trans (abs_nearest_sub_le x)) fun h => ?_
  have := nearest_even (hflip ▸ h)
  omega

/-! ### The nearest number with `p` digits -/

/-- The last of `p` digits of a number. -/
def lastDigit (p : ℕ) (x : ℚ) : ℚ := 2 ^ (Int.log 2 |x| + 1 - p)

/-- The nearest number with `p` digits. -/
def toPrecision (p : ℕ) (x : ℚ) : ℚ := nearest (x / lastDigit p x) * lastDigit p x

/-- The three facts that computations use. -/
structure IsRounding (p : ℕ) (rnd : ℚ → ℚ) : Prop where
  error : ∀ x, |rnd x - x| ≤ |x| / 2 ^ p
  mono : Monotone rnd
  exact : ∀ n : ℤ, |n| ≤ 2 ^ p → rnd n = n

section Precision

variable {p : ℕ} {x y : ℚ}

theorem lastDigit_pos (p : ℕ) (x : ℚ) : 0 < lastDigit p x := zpow_pos two_pos _

/-- The power of two above a number, as a multiple of the last digit. -/
theorem pow_mul_lastDigit (p : ℕ) (x : ℚ) :
    2 ^ p * lastDigit p x = 2 ^ (Int.log 2 |x| + 1) := by
  rw [lastDigit, zpow_sub₀ two_ne_zero, zpow_natCast]
  field_simp

/-- The power of two below it. -/
theorem pow_div_mul_lastDigit (p : ℕ) (x : ℚ) :
    2 ^ p / 2 * lastDigit p x = 2 ^ Int.log 2 |x| := by
  have hpow := pow_mul_lastDigit p x
  rw [zpow_add_one₀ two_ne_zero] at hpow
  linarith

/-- A number that is not zero has its first digit. -/
theorem digits_le_abs (hx : x ≠ 0) : 2 ^ p / 2 * lastDigit p x ≤ |x| := by
  rw [pow_div_mul_lastDigit]
  exact_mod_cast Int.zpow_log_le_self (b := 2) (by decide) (abs_pos.2 hx)

theorem abs_lt_digits (x : ℚ) : |x| < 2 ^ p * lastDigit p x := by
  rw [pow_mul_lastDigit]
  exact_mod_cast Int.lt_zpow_succ_log_self (b := 2) (by decide) |x|

theorem toPrecision_zero (p : ℕ) : toPrecision p 0 = 0 := by
  have hzero : nearest 0 = 0 := nearest_intCast 0
  rw [toPrecision, zero_div, hzero, Int.cast_zero, zero_mul]

/-- **The relative error.** -/
theorem abs_toPrecision_sub_le (p : ℕ) (x : ℚ) : |toPrecision p x - x| ≤ |x| / 2 ^ p := by
  rcases eq_or_ne x 0 with rfl | hx
  · simp [toPrecision_zero]
  · have hpos := lastDigit_pos p x
    have hfirst : (2 : ℚ) ^ p / 2 * lastDigit p x ≤ |x| := digits_le_abs hx
    have hscaled : toPrecision p x - x =
        (nearest (x / lastDigit p x) - x / lastDigit p x) * lastDigit p x := by
      rw [toPrecision, sub_mul, div_mul_cancel₀ x hpos.ne']
    rw [hscaled, abs_mul, abs_of_pos hpos, le_div_iff₀ (by positivity)]
    have herror := mul_le_mul_of_nonneg_right (abs_nearest_sub_le (x / lastDigit p x)) hpos.le
    calc |(nearest (x / lastDigit p x) : ℚ) - x / lastDigit p x| * lastDigit p x * 2 ^ p
        ≤ 1 / 2 * lastDigit p x * 2 ^ p := mul_le_mul_of_nonneg_right herror (by positivity)
      _ = 2 ^ p / 2 * lastDigit p x := by ring
      _ ≤ |x| := hfirst

/-- A positive number stays between the powers of two around it. -/
theorem toPrecision_bounds_of_pos (hp : 0 < p) (hx : 0 < x) :
    2 ^ Int.log 2 |x| ≤ toPrecision p x ∧ toPrecision p x ≤ 2 ^ (Int.log 2 |x| + 1) := by
  obtain ⟨q, rfl⟩ : ∃ q, p = q + 1 := ⟨p - 1, by omega⟩
  have hpos := lastDigit_pos (q + 1) x
  have hhalf : (2 : ℚ) ^ (q + 1) / 2 = ((2 ^ q : ℤ) : ℚ) := by
    push_cast
    rw [pow_succ]
    ring
  have hlo : ((2 ^ q : ℤ) : ℚ) ≤ x / lastDigit (q + 1) x := by
    rw [le_div_iff₀ hpos, ← hhalf]
    exact (digits_le_abs hx.ne').trans (abs_of_pos hx).le
  have hhi : x / lastDigit (q + 1) x ≤ ((2 ^ (q + 1) : ℤ) : ℚ) := by
    rw [div_le_iff₀ hpos]
    push_cast
    exact (le_abs_self x).trans (abs_lt_digits x).le
  have hlo' := nearest_mono hlo
  have hhi' := nearest_mono hhi
  rw [nearest_intCast] at hlo' hhi'
  constructor
  · rw [← pow_div_mul_lastDigit (q + 1) x, hhalf]
    exact mul_le_mul_of_nonneg_right (by exact_mod_cast hlo') hpos.le
  · rw [← pow_mul_lastDigit (q + 1) x]
    exact mul_le_mul_of_nonneg_right (by exact_mod_cast hhi') hpos.le

/-- Of two numbers with the same last digit the larger one is rounded to the larger one. -/
theorem toPrecision_le_of_lastDigit (hxy : x ≤ y) (hlast : lastDigit p x = lastDigit p y) :
    toPrecision p x ≤ toPrecision p y := by
  have hpos := lastDigit_pos p y
  rw [toPrecision, toPrecision, hlast]
  refine mul_le_mul_of_nonneg_right ?_ hpos.le
  exact_mod_cast nearest_mono ((div_le_div_iff_of_pos_right hpos).2 hxy)

theorem toPrecision_le_of_pos (hp : 0 < p) (hx : 0 < x) (hxy : x ≤ y) :
    toPrecision p x ≤ toPrecision p y := by
  have hy := hx.trans_le hxy
  have hlog : Int.log 2 |x| ≤ Int.log 2 |y| := by
    rw [abs_of_pos hx, abs_of_pos hy]
    exact Int.log_mono_right hx hxy
  rcases hlog.lt_or_eq with hlt | heq
  · calc toPrecision p x ≤ 2 ^ (Int.log 2 |x| + 1) := (toPrecision_bounds_of_pos hp hx).2
      _ ≤ 2 ^ Int.log 2 |y| := zpow_le_zpow_right₀ one_le_two (by omega)
      _ ≤ toPrecision p y := (toPrecision_bounds_of_pos hp hy).1
  · exact toPrecision_le_of_lastDigit hxy (by rw [lastDigit, lastDigit, heq])

theorem toPrecision_neg (p : ℕ) (x : ℚ) : toPrecision p (-x) = -toPrecision p x := by
  have hlast : lastDigit p (-x) = lastDigit p x := by rw [lastDigit, lastDigit, abs_neg]
  rw [toPrecision, toPrecision, hlast, neg_div, nearest_neg, Int.cast_neg, neg_mul]

theorem toPrecision_nonneg (hp : 0 < p) (hx : 0 ≤ x) : 0 ≤ toPrecision p x := by
  rcases hx.eq_or_lt with rfl | hx
  · rw [toPrecision_zero]
  · exact (zpow_pos two_pos _).le.trans (toPrecision_bounds_of_pos hp hx).1

/-- **Larger numbers are rounded to larger ones.** -/
theorem toPrecision_mono (hp : 0 < p) : Monotone (toPrecision p) := by
  intro x y hxy
  rcases lt_or_ge 0 x with hx | hx
  · exact toPrecision_le_of_pos hp hx hxy
  · have hneg := toPrecision_nonneg hp (neg_nonneg.2 hx)
    rw [toPrecision_neg] at hneg
    rcases lt_or_ge y 0 with hy | hy
    · have h := toPrecision_le_of_pos hp (neg_pos.2 hy) (neg_le_neg hxy)
      rw [toPrecision_neg, toPrecision_neg] at h
      linarith
    · linarith [toPrecision_nonneg hp hy]

/-- A multiple of the last digit is not changed. -/
theorem toPrecision_eq_self {n : ℤ} (h : x = n * lastDigit p x) : toPrecision p x = x := by
  have hpos := lastDigit_pos p x
  have hscaled : x / lastDigit p x = n := by
    rw [div_eq_iff hpos.ne']
    exact h
  rw [toPrecision, hscaled, nearest_intCast]
  exact h.symm

/-- **Small integers are not changed.** -/
theorem toPrecision_intCast (hp : 0 < p) {n : ℤ} (hn : |n| ≤ 2 ^ p) : toPrecision p n = n := by
  rcases eq_or_ne n 0 with rfl | hne
  · exact_mod_cast toPrecision_zero p
  · have hne' : (n : ℚ) ≠ 0 := by exact_mod_cast hne
    have hlog := Int.zpow_log_le_self (b := 2) (by decide) (abs_pos.2 hne')
    have hn' : |(n : ℚ)| ≤ 2 ^ p := by exact_mod_cast hn
    have hle : Int.log 2 |(n : ℚ)| ≤ p := by
      have hpow : (2 : ℚ) ^ Int.log 2 |(n : ℚ)| ≤ 2 ^ (p : ℤ) := by
        rw [zpow_natCast]
        exact (by exact_mod_cast hlog : (2 : ℚ) ^ Int.log 2 |(n : ℚ)| ≤ |(n : ℚ)|).trans hn'
      exact (zpow_le_zpow_iff_right₀ one_lt_two).1 hpow
    rcases hle.lt_or_eq with hlt | heq
    · -- the last digit is one over a power of two
      obtain ⟨k, hk⟩ : ∃ k : ℕ, Int.log 2 |(n : ℚ)| + 1 - p = -(k : ℤ) :=
        ⟨(p - 1 - Int.log 2 |(n : ℚ)|).toNat, by omega⟩
      refine toPrecision_eq_self (n := n * 2 ^ k) ?_
      rw [lastDigit, hk, zpow_neg, zpow_natCast]
      push_cast
      field_simp
    · -- the number is the power of two, and the last digit is two
      have hlow : (2 : ℚ) ^ p ≤ |(n : ℚ)| := by
        rw [heq, zpow_natCast] at hlog
        exact_mod_cast hlog
      have habs : |n| = 2 ^ p := by exact_mod_cast le_antisymm hn' hlow
      have hlast : lastDigit p (n : ℚ) = 2 := by
        rw [lastDigit, heq, add_sub_cancel_left, zpow_one]
      have heven : n % 2 = 0 := by
        have : (2 : ℤ) ∣ |n| := habs ▸ dvd_pow_self 2 hp.ne'
        exact Int.emod_eq_zero_of_dvd ((dvd_abs 2 n).1 this)
      refine toPrecision_eq_self (n := n / 2) ?_
      rw [hlast]
      exact_mod_cast (Int.ediv_mul_cancel (Int.dvd_of_emod_eq_zero heven)).symm

/-- A number that is near enough below a small integer is rounded to it. -/
theorem toPrecision_eq_of_near (hp : 0 < p) {n : ℤ} (hx : 0 < x) (hxn : x ≤ n) (hn : n ≤ 2 ^ p)
    (hnear : n - x ≤ x / 2 ^ (p + 1)) : toPrecision p x = n := by
  have hn' : (n : ℚ) ≤ 2 ^ p := by exact_mod_cast hn
  rcases lt_or_ge x (2 ^ p) with hlt | hge
  · have hlog : Int.log 2 x < p := by
      rw [← Int.lt_zpow_iff_log_lt (by decide) hx]
      exact_mod_cast hlt
    obtain ⟨k, hk⟩ : ∃ k : ℕ, Int.log 2 x + 1 - p = -(k : ℤ) :=
      ⟨(p - 1 - Int.log 2 x).toNat, by omega⟩
    have hlast : lastDigit p x = (2 ^ k)⁻¹ := by
      rw [lastDigit, abs_of_pos hx, hk, zpow_neg, zpow_natCast]
    have hpos := lastDigit_pos p x
    -- `x` is less than `2 ^ p` last digits, so the distance is less than half a digit
    have hdigits : x < 2 ^ p * lastDigit p x := by
      have := abs_lt_digits (p := p) x
      rwa [abs_of_pos hx] at this
    have hhalf : n - x < 1 / 2 * lastDigit p x := by
      refine hnear.trans_lt ?_
      rw [div_lt_iff₀ (by positivity), pow_succ]
      linarith
    have hscaled : nearest (x / lastDigit p x) = n * 2 ^ k := by
      have hdist : |((n * 2 ^ k : ℤ) : ℚ) - x / lastDigit p x| < 1 / 2 := by
        have heq : ((n * 2 ^ k : ℤ) : ℚ) - x / lastDigit p x = (n - x) / lastDigit p x := by
          rw [hlast]
          push_cast
          field_simp
        rw [heq, abs_of_nonneg (div_nonneg (by linarith) hpos.le), div_lt_iff₀ hpos]
        exact hhalf
      exact nearest_eq hdist.le fun htie => absurd htie hdist.ne
    rw [toPrecision, hscaled, hlast]
    push_cast
    field_simp
  · obtain rfl : x = n := le_antisymm hxn (hn'.trans hge)
    refine toPrecision_intCast hp (abs_le.2 ⟨?_, hn⟩)
    have : (0 : ℤ) < n := by exact_mod_cast hx
    linarith [pow_pos (two_pos (α := ℤ)) p]

/-- **Rounding to the nearest number has the three facts.** -/
theorem isRounding_toPrecision (hp : 0 < p) : IsRounding p (toPrecision p) :=
  ⟨abs_toPrecision_sub_le p, toPrecision_mono hp, fun _ => toPrecision_intCast hp⟩

end Precision

/-! ### Doubles -/

/-- The rounding of the format with 53 digits. -/
def binary64 (x : ℚ) : ℚ := toPrecision 53 x

theorem isRounding_binary64 : IsRounding 53 binary64 := isRounding_toPrecision (by decide)

end Rounding
