/-
**Prices of the text protocol.**

A `bt_price_t` counts micro-dollars, and `BT_PRICE_FROM_DOUBLE` converts a price in dollars to it.
The text parser does not use the conversion: it assigns the result of `strtod` to the price field,
and the implicit conversion of C drops the fraction.  So the price of a text order is the whole
number of dollars, taken for micro-dollars.

The double is read as an exact rational here, and `strtod` is any function that reads the decimal
texts right.

Main definitions:

* `Gateway.PriceText` — a decimal price: digits, and at most six more behind a point;
* `Gateway.convert` — the conversion of a number to a `bt_price_t`;
* `Gateway.readDecimal` — `strtod` on decimal texts.

Main results:

* `Gateway.price_truncated` — the price is the text's value without its fraction;
* `Gateway.text_price_scaled_iff` — **the price of a text order is in micro-dollars exactly when it
  is zero**;
* `Gateway.price_in_dollars` — a price of `150.25`.
-/

import AspiraBroker.GatewayNumerals
import Mathlib.Data.Rat.Floor
import Mathlib.Tactic.Linarith

set_option relaxedAutoImplicit false
set_option autoImplicit false

namespace Gateway

/-! ### Decimal prices -/

/-- `BT_PRICE_SCALE`. -/
def btPriceScale : ℚ := 1000000

/-- A decimal price text: digits, and behind a point at most six more; at most thirty-one bytes,
and a value below `10 ^ 9`. -/
structure PriceText where
  whole : List UInt8
  frac : List UInt8
  point : Bool
  whole_digits : Digits whole
  frac_digits : Digits frac
  nonempty : whole ++ frac ≠ []
  frac_of_point : point = false → frac = []
  frac_le : frac.length ≤ 6
  short : (whole ++ if point then ascii '.' :: frac else []).length ≤ 31
  value_lt : (digitsValue whole : ℚ) + digitsValue frac / 10 ^ frac.length < 1000000000

namespace PriceText

variable (t : PriceText)

/-- The bytes of the text. -/
def text : List UInt8 := t.whole ++ if t.point then ascii '.' :: t.frac else []

/-- The price in dollars. -/
def value : ℚ := digitsValue t.whole + digitsValue t.frac / 10 ^ t.frac.length

/-- The parser's copy of the value keeps the whole text. -/
theorem take_text : t.text.take 31 = t.text := List.take_of_length_le t.short

theorem value_nonneg : 0 ≤ t.value := by
  unfold value
  positivity

end PriceText

/-- `strtod` on a decimal text: digits, and digits behind a point. -/
def readDecimal (vb : List UInt8) : ℚ :=
  let rest := vb.dropWhile isDigit
  let frac := if rest.head? = some (ascii '.') then rest.tail.takeWhile isDigit else []
  digitsValue (vb.takeWhile isDigit) + digitsValue frac / 10 ^ frac.length

/-- It reads a price text right. -/
theorem readDecimal_text (t : PriceText) : readDecimal t.text = t.value := by
  obtain ⟨whole, frac, point, hwhole, hfrac, -, hnil, -, -, -⟩ := t
  have hpoint : isDigit (ascii '.') = false := by decide
  have htake : frac.takeWhile isDigit = frac := List.takeWhile_eq_self_iff.2 hfrac
  simp only [readDecimal, PriceText.text, PriceText.value, List.takeWhile_append_of_pos hwhole,
    List.dropWhile_append_of_pos hwhole]
  cases point with
  | true => simp [hpoint, htake]
  | false => simp [hnil rfl]

/-- The conversion of C to an `int64_t`: the fraction is dropped. -/
def convert (d : ℚ) : Int64 := Int64.ofInt (d.num.tdiv d.den)

/-- Between zero and `10 ^ 9` the conversion is the floor. -/
theorem toInt_convert {d : ℚ} (hnonneg : 0 ≤ d) (hlt : d < 1000000000) :
    (convert d).toInt = ⌊d⌋ := by
  have hfloor : d.num.tdiv d.den = ⌊d⌋ := by
    rw [Rat.floor_def', Int.tdiv_eq_ediv_of_nonneg (Rat.num_nonneg.2 hnonneg)]
  have hlow : 0 ≤ ⌊d⌋ := Int.floor_nonneg.2 hnonneg
  have hhigh : ⌊d⌋ < 1000000000 := by
    rw [Int.floor_lt]
    exact_mod_cast hlt
  rw [convert, hfloor]
  exact Int64.toInt_ofInt_of_le (by omega) (by omega)

/-! ### The price of a text order -/

/-- The text `0.00`. -/
def zeroPrice : PriceText where
  whole := [ascii '0']
  frac := [ascii '0', ascii '0']
  point := true
  whole_digits := by decide
  frac_digits := by decide
  nonempty := by decide
  frac_of_point := by decide
  frac_le := by decide
  short := by decide
  value_lt := by decide +kernel

section Price

variable {strtod : List UInt8 → ℚ} (hstrtod : ∀ t : PriceText, strtod t.text = t.value)
  {payload : List UInt8} {t : PriceText} (hgiven : given payload 'p' = some t.text) (now : UInt64)

include hstrtod hgiven

/-- The price is the text's value without its fraction. -/
theorem price_truncated :
    (gwTextRequest (fun vb => convert (strtod vb)) payload now).price.toInt = ⌊t.value⌋ := by
  rw [gwTextRequest_eq, price_interpret,
    show lastGiven (textFields payload) 'p' = some t.text from hgiven, Option.map_some,
    Option.getD_some, t.take_text, hstrtod]
  exact toInt_convert t.value_nonneg t.value_lt

/-- **The price of a text order is in micro-dollars exactly when it is zero.** -/
theorem text_price_scaled_iff :
    ((gwTextRequest (fun vb => convert (strtod vb)) payload now).price.toInt : ℚ) =
        t.value * btPriceScale ↔ t.value = 0 := by
  rw [price_truncated hstrtod hgiven]
  have hle : (⌊t.value⌋ : ℚ) ≤ t.value := Int.floor_le _
  have hnonneg := t.value_nonneg
  rw [btPriceScale]
  constructor
  · intro heq
    linarith
  · intro hzero
    simp [hzero]

end Price

/-- A price of zero is in micro-dollars. -/
theorem text_price_scaled_zero :
    ((gwTextRequest (fun vb => convert (readDecimal vb)) ([ascii 'p', ascii '='] ++ zeroPrice.text)
        0).price.toInt : ℚ) = zeroPrice.value * btPriceScale :=
  (text_price_scaled_iff readDecimal_text (by decide) 0).2 (by decide +kernel)

/-- The text `150.25`. -/
def somePrice : PriceText where
  whole := [ascii '1', ascii '5', ascii '0']
  frac := [ascii '2', ascii '5']
  point := true
  whole_digits := by decide
  frac_digits := by decide
  nonempty := by decide
  frac_of_point := by decide
  frac_le := by decide
  short := by decide
  value_lt := by decide +kernel

/-- The price `150.25` becomes `150`, not `150250000`. -/
theorem price_in_dollars :
    ((gwParseOrderText (fun vb => convert (readDecimal vb))
        ("s=AAPL|p=".toList.map ascii ++ somePrice.text) 0).map OrderRequest.price) = some 150 ∧
      somePrice.value * btPriceScale = 150250000 := by
  decide +kernel

end Gateway
