/-
**Prices and doubles.**

`bt_types.h` counts prices in micro-dollars and has two macros for the way from dollars as a double
and back.  `BT_PRICE_FROM_DOUBLE` multiplies, adds one half and lets the conversion of C drop the
fraction.  That rounds to the nearest micro-dollar from zero upwards.  Below zero the conversion
goes towards zero and the half was already added, so the result is one too large.

The doubles are the rationals that the operations round to.  A compiler is free to contract the
product and the sum of the macro to one operation, which rounds once; the results hold for both.

Main definitions:

* `Price.btPriceFromDouble`, `Price.btPriceToDouble` — the macros.

Main results:

* `Price.toInt_fromDouble_of_near` — the conversion of a double next to a number of micro-dollars;
* `Price.price_round_trip` — **a price comes back from its double exactly when it is not negative,
  and otherwise one larger**;
* `Price.text_price_exact` — **the double next to a decimal price is converted to its
  micro-dollars**.
-/

import AspiraBroker.NearestRounding
import AspiraBroker.GatewayPrice

set_option relaxedAutoImplicit false
set_option autoImplicit false

namespace Price

open Rounding Gateway

/-! ### The macros -/

theorem btPriceScale_pos : 0 < btPriceScale := by norm_num [btPriceScale]

/-- `BT_PRICE_FROM_DOUBLE`; `contracted` if the product is not rounded before the sum. -/
def btPriceFromDouble (contracted : Bool) (d : ℚ) : Int64 :=
  convert (binary64
    ((if contracted then d * btPriceScale else binary64 (d * btPriceScale)) + 1 / 2))

/-- `BT_PRICE_TO_DOUBLE`. -/
def btPriceToDouble (p : Int64) : ℚ := binary64 (binary64 p.toInt / btPriceScale)

/-! ### From dollars -/

/-- The conversion of C goes towards zero. -/
theorem toInt_convert_of_between {n : ℤ} {d : ℚ} (hn : |n| ≤ 2 ^ 50) (hlow : n < d)
    (hhigh : d < n + 1) : (convert d).toInt = if 0 ≤ n then n else n + 1 := by
  have hbounds := abs_le.1 hn
  have hquot : d.num.tdiv d.den = if 0 ≤ n then n else n + 1 := by
    split
    case isTrue hpos =>
      have hd : 0 ≤ d := le_trans (by exact_mod_cast hpos) hlow.le
      rw [Int.tdiv_eq_ediv_of_nonneg (Rat.num_nonneg.2 hd), ← Rat.floor_def', Int.floor_eq_iff]
      exact ⟨hlow.le, hhigh⟩
    case isFalse hneg =>
      have hd : 0 ≤ -d := by
        have : (n : ℚ) + 1 ≤ 0 := by exact_mod_cast (by omega : n + 1 ≤ 0)
        linarith
      have hfloor : ⌊-d⌋ = -(n + 1) := by
        rw [Int.floor_eq_iff]
        push_cast
        constructor <;> linarith
      have habs : (-d).num.tdiv (-d).den = -(n + 1) := by
        rw [Int.tdiv_eq_ediv_of_nonneg (Rat.num_nonneg.2 hd), ← Rat.floor_def', hfloor]
      rw [Rat.num_neg_eq_neg_num, Rat.den_neg_eq_den, Int.neg_tdiv] at habs
      exact neg_injective habs
  rw [convert, hquot]
  refine Int64.toInt_ofInt_of_le ?_ ?_ <;> split <;> omega

/-- Rounding a number that is next to a small integer. -/
theorem abs_binary64_sub_le {x y e : ℚ} (hy : |y| ≤ 2 ^ 50 + 1 / 2) (he : e ≤ 1 / 2)
    (h : |x - y| ≤ e) : |binary64 x - y| ≤ e + (1 / 8 + 1 / 2 ^ 53) := by
  have herr := isRounding_binary64.error x
  have hx : |x| ≤ 2 ^ 50 + 1 := by
    calc |x| = |(x - y) + y| := by rw [sub_add_cancel]
      _ ≤ |x - y| + |y| := abs_add_le _ _
      _ ≤ 2 ^ 50 + 1 := by linarith
  calc |binary64 x - y| = |(binary64 x - x) + (x - y)| := by rw [sub_add_sub_cancel]
    _ ≤ |binary64 x - x| + |x - y| := abs_add_le _ _
    _ ≤ e + (1 / 8 + 1 / 2 ^ 53) := by linarith

/-- **A double next to a number of micro-dollars is converted to it, if it is not negative.** -/
theorem toInt_fromDouble_of_near (contracted : Bool) {d : ℚ} {n : ℤ} (hn : |n| ≤ 2 ^ 50)
    (h : |d * btPriceScale - n| ≤ 1 / 8) :
    (btPriceFromDouble contracted d).toInt = if 0 ≤ n then n else n + 1 := by
  have hn' : |(n : ℚ)| ≤ 2 ^ 50 := by exact_mod_cast hn
  have hhalf : |(n : ℚ) + 1 / 2| ≤ 2 ^ 50 + 1 / 2 := by
    refine (abs_add_le _ _).trans (add_le_add hn' ?_)
    rw [abs_of_pos (by norm_num)]
  -- the product, rounded or not
  have hprod : |((if contracted then d * btPriceScale else binary64 (d * btPriceScale)) + 1 / 2) -
      ((n : ℚ) + 1 / 2)| ≤ 1 / 8 + (1 / 8 + 1 / 2 ^ 53) := by
    rw [add_sub_add_right_eq_sub]
    split
    case isTrue => exact h.trans (by norm_num)
    case isFalse => exact abs_binary64_sub_le (by linarith) (by norm_num) h
  have hsum := abs_le.1 (abs_binary64_sub_le hhalf (by norm_num) hprod)
  have hlt : 1 / 8 + (1 / 8 + 1 / 2 ^ 53) + (1 / 8 + 1 / 2 ^ 53) < (1 / 2 : ℚ) := by norm_num
  exact toInt_convert_of_between hn (by linarith) (by linarith)

/-! ### To dollars and back -/

/-- Rounding an amount of dollars loses little of a micro-dollar. -/
theorem abs_binary64_mul_scale_sub_le {x : ℚ} (hx : |x * btPriceScale| ≤ 2 ^ 50) :
    |binary64 x * btPriceScale - x * btPriceScale| ≤ 1 / 8 := by
  have hscale := btPriceScale_pos
  rw [abs_mul, abs_of_pos hscale] at hx
  calc |binary64 x * btPriceScale - x * btPriceScale|
      = |binary64 x - x| * btPriceScale := by rw [← sub_mul, abs_mul, abs_of_pos hscale]
    _ ≤ |x| / 2 ^ 53 * btPriceScale := by
        gcongr
        exact isRounding_binary64.error x
    _ = |x| * btPriceScale / 2 ^ 53 := by rw [div_mul_eq_mul_div]
    _ ≤ 1 / 8 := by
        rw [div_le_iff₀ (by norm_num)]
        linarith

/-- The double next to a number of micro-dollars is converted to it, if it is not negative. -/
theorem toInt_fromDouble_binary64 (contracted : Bool) {x : ℚ} {n : ℤ} (hn : |n| ≤ 2 ^ 50)
    (hx : x * btPriceScale = n) :
    (btPriceFromDouble contracted (binary64 x)).toInt = if 0 ≤ n then n else n + 1 := by
  refine toInt_fromDouble_of_near contracted hn (hx ▸ abs_binary64_mul_scale_sub_le ?_)
  rw [hx]
  exact_mod_cast hn

/-- **A price comes back from its double exactly when it is not negative, and otherwise one
larger.** -/
theorem price_round_trip (contracted : Bool) (p : Int64) (hp : |p.toInt| ≤ 2 ^ 50) :
    (btPriceFromDouble contracted (btPriceToDouble p)).toInt =
      if 0 ≤ p.toInt then p.toInt else p.toInt + 1 := by
  have hexact : binary64 p.toInt = p.toInt :=
    isRounding_binary64.exact _ (hp.trans (by norm_num))
  rw [btPriceToDouble, hexact]
  exact toInt_fromDouble_binary64 contracted hp (div_mul_cancel₀ _ btPriceScale_pos.ne')

/-- A cent more and a cent less. -/
theorem price_round_trip_cent :
    (btPriceFromDouble true (btPriceToDouble 10000)).toInt = 10000 ∧
      (btPriceFromDouble false (btPriceToDouble (-10000))).toInt = -9999 :=
  ⟨price_round_trip true 10000 (by decide), price_round_trip false (-10000) (by decide)⟩

/-! ### Decimal prices -/

/-- A decimal price is a whole number of micro-dollars. -/
theorem exists_micro (t : PriceText) : ∃ n : ℕ, t.value * btPriceScale = n ∧ n < 10 ^ 15 := by
  have hvalue : t.value * btPriceScale =
      ((digitsValue t.whole * 10 ^ 6 + digitsValue t.frac * 10 ^ (6 - t.frac.length) : ℕ) : ℚ) := by
    have hpow : btPriceScale = 10 ^ t.frac.length * 10 ^ (6 - t.frac.length) := by
      rw [← pow_add, Nat.add_sub_cancel' t.frac_le]
      norm_num [btPriceScale]
    have hfrac : (digitsValue t.frac : ℚ) / 10 ^ t.frac.length * btPriceScale =
        digitsValue t.frac * 10 ^ (6 - t.frac.length) := by
      rw [hpow]
      field_simp
    rw [PriceText.value, add_mul, hfrac, btPriceScale]
    push_cast
    ring
  refine ⟨_, hvalue, ?_⟩
  have hlt : t.value * btPriceScale < 10 ^ 15 := by
    have hvalue_lt : t.value < 1000000000 := t.value_lt
    rw [btPriceScale]
    linarith
  rw [hvalue] at hlt
  exact_mod_cast hlt

/-- **The double next to a decimal price is converted to its micro-dollars.** -/
theorem text_price_exact (contracted : Bool) (t : PriceText) :
    ((btPriceFromDouble contracted (binary64 t.value)).toInt : ℚ) = t.value * btPriceScale := by
  obtain ⟨n, hn, hlt⟩ := exists_micro t
  have habs : |(n : ℤ)| ≤ 2 ^ 50 := by
    rw [Nat.abs_cast]
    omega
  rw [toInt_fromDouble_binary64 contracted habs (by exact_mod_cast hn),
    if_pos (Int.natCast_nonneg n), hn]
  norm_cast

end Price
