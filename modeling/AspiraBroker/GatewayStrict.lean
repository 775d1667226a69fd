/-
**What the text parser accepts.**

An order that the parser accepts should be the order that the payload spells out.  But the parser
refuses a payload only for want of a symbol.  A number is read by `strtoull` as far as it goes, so
`q=abc` is the quantity `0` and `u=-1` the user `2 ^ 64 - 1`; a quantity is cut to thirty-two bits,
so `q=4294967297` is the quantity `1`; a numeral is cut to thirty-one digits; and an unknown side is
a buy, an unknown type a limit order.  The binary protocol refuses a side and a type that it does
not know.

Main definitions:

* `Gateway.ReadExactly` — a request says what the values of the payload say, all of which are well
  formed;
* `Gateway.WellFormedText` — the last value of each key is well formed, and a number is not cut;
* `Gateway.HasSymbol` — the payload gives a symbol.

Main results:

* `Gateway.text_read_exactly_iff` — **an accepted order is what the payload says exactly when** the
  payload has no symbol or its values are well formed;
* `Gateway.malformed_side_accepted` — a payload that is read as another order.
-/

import AspiraBroker.GatewayNumerals

set_option relaxedAutoImplicit false
set_option autoImplicit false

namespace Gateway

/-- The side that a letter stands for. -/
def sideOfLetter (b : UInt8) : Option Side :=
  if b = ascii 'B' ∨ b = ascii 'b' then some .buy
  else if b = ascii 'S' ∨ b = ascii 's' then some .sell
  else none

/-- The type that a letter stands for. -/
def typeOfLetter (b : UInt8) : Option OrderType :=
  if b = ascii 'L' then some .limit
  else if b = ascii 'M' then some .market
  else if b = ascii 'I' then some .ioc
  else if b = ascii 'F' then some .fok
  else none

/-- The last value of each key that the parser finds is well formed, and the request says exactly
that. -/
structure ReadExactly (payload : List UInt8) (req : OrderRequest) : Prop where
  user : ∀ v, given payload 'u' = some v →
    Numeral v ∧ digitsValue v < 2 ^ 64 ∧ req.userId.toNat = digitsValue v
  quantity : ∀ v, given payload 'q' = some v →
    Numeral v ∧ digitsValue v < 2 ^ 32 ∧ req.quantity.toNat = digitsValue v
  side : ∀ v, given payload 'd' = some v → sideOfLetter (v.headD 0) = some req.side
  type : ∀ v, given payload 't' = some v → typeOfLetter (v.headD 0) = some req.type

/-- The last value of each key that the parser finds is well formed, and a numeral has at most
thirty-one digits unless it is zero. -/
structure WellFormedText (payload : List UInt8) : Prop where
  user : ∀ v, given payload 'u' = some v →
    Numeral v ∧ digitsValue v < 2 ^ 64 ∧ (v.length ≤ 31 ∨ digitsValue v = 0)
  quantity : ∀ v, given payload 'q' = some v →
    Numeral v ∧ digitsValue v < 2 ^ 32 ∧ (v.length ≤ 31 ∨ digitsValue v = 0)
  side : ∀ v, given payload 'd' = some v → (sideOfLetter (v.headD 0)).isSome
  type : ∀ v, given payload 't' = some v → (typeOfLetter (v.headD 0)).isSome

/-- The last symbol given does not begin with a zero byte, nor is it empty. -/
def HasSymbol (payload : List UInt8) : Prop := ((given payload 's').map (·.headD 0)).getD 0 ≠ 0

section Text

variable (strtod : List UInt8 → Int64) (payload : List UInt8) (now : UInt64)

/-- The parser refuses a payload only for want of a symbol. -/
theorem gwParseOrderText_of_hasSymbol (h : HasSymbol payload) :
    gwParseOrderText strtod payload now = some (gwTextRequest strtod payload now) := by
  rw [gwParseOrderText_eq, if_neg]
  rw [gwTextRequest_eq, symbol_head_interpret]
  exact h

theorem gwParseOrderText_of_not_hasSymbol (h : ¬ HasSymbol payload) :
    gwParseOrderText strtod payload now = none := by
  rw [gwParseOrderText_eq, if_pos]
  rw [gwTextRequest_eq, symbol_head_interpret]
  exact not_not.1 h

/-! ### Letters -/

theorem headD_take (v : List UInt8) : (v.take 31).headD 0 = v.headD 0 := by
  cases v with
  | nil => rfl
  | cons b v => rfl

/-- The parser agrees with the letters that stand for a side. -/
theorem sideOfLetter_eq_iff (v : List UInt8) :
    sideOfLetter (v.headD 0) = some (textSide v) ↔ (sideOfLetter (v.headD 0)).isSome := by
  rw [textSide, headD_take]
  generalize v.headD 0 = b
  rw [sideOfLetter]
  by_cases hbuy : b = ascii 'B' ∨ b = ascii 'b'
  · have hnot : ¬ (b = ascii 'S' ∨ b = ascii 's') := by
      rintro (rfl | rfl) <;> revert hbuy <;> decide
    rw [if_pos hbuy, if_neg hnot]
    simp
  · by_cases hsell : b = ascii 'S' ∨ b = ascii 's'
    · rw [if_neg hbuy, if_pos hsell, if_pos hsell]
      simp
    · rw [if_neg hbuy, if_neg hsell]
      simp

/-- The parser agrees with the letters that stand for a type. -/
theorem typeOfLetter_eq_iff (v : List UInt8) :
    typeOfLetter (v.headD 0) = some (textType v) ↔ (typeOfLetter (v.headD 0)).isSome := by
  rw [textType, headD_take, typeOfLetter]
  split_ifs <;> simp

/-! ### The result -/

/-- The request that the loop leaves says what the payload says exactly when its values are well
formed. -/
theorem readExactly_gwTextRequest_iff :
    ReadExactly payload (gwTextRequest strtod payload now) ↔ WellFormedText payload := by
  rw [gwTextRequest_eq]
  generalize hreq : interpret strtod (textFields payload) (.blank now) = req
  -- one key after the other: what the request has there, and when that is the value
  have huser : ∀ v, given payload 'u' = some v →
      (Numeral v ∧ digitsValue v < 2 ^ 64 ∧ req.userId.toNat = digitsValue v ↔
        Numeral v ∧ digitsValue v < 2 ^ 64 ∧ (v.length ≤ 31 ∨ digitsValue v = 0)) := by
    intro v hv
    have hid : req.userId = textNumber v := by
      rw [← hreq, userId_interpret, show lastGiven (textFields payload) 'u' = some v from hv]
      rfl
    rw [hid]
    exact and_congr_right fun hnum => and_congr_right fun hlt => textNumber_eq_iff hnum.2 hlt
  have hquantity : ∀ v, given payload 'q' = some v →
      (Numeral v ∧ digitsValue v < 2 ^ 32 ∧ req.quantity.toNat = digitsValue v ↔
        Numeral v ∧ digitsValue v < 2 ^ 32 ∧ (v.length ≤ 31 ∨ digitsValue v = 0)) := by
    intro v hv
    have hqty : req.quantity = (textNumber v).toUInt32 := by
      rw [← hreq, quantity_interpret, show lastGiven (textFields payload) 'q' = some v from hv]
      rfl
    rw [hqty]
    exact and_congr_right fun hnum => and_congr_right fun hlt =>
      textNumber_toUInt32_eq_iff hnum.2 hlt
  have hside : ∀ v, given payload 'd' = some v →
      (sideOfLetter (v.headD 0) = some req.side ↔ (sideOfLetter (v.headD 0)).isSome) := by
    intro v hv
    rw [← hreq, side_interpret, show lastGiven (textFields payload) 'd' = some v from hv]
    exact sideOfLetter_eq_iff v
  have htype : ∀ v, given payload 't' = some v →
      (typeOfLetter (v.headD 0) = some req.type ↔ (typeOfLetter (v.headD 0)).isSome) := by
    intro v hv
    rw [← hreq, type_interpret, show lastGiven (textFields payload) 't' = some v from hv]
    exact typeOfLetter_eq_iff v
  constructor
  · intro h
    exact ⟨fun v hv => (huser v hv).1 (h.user v hv),
      fun v hv => (hquantity v hv).1 (h.quantity v hv),
      fun v hv => (hside v hv).1 (h.side v hv), fun v hv => (htype v hv).1 (h.type v hv)⟩
  · intro h
    exact ⟨fun v hv => (huser v hv).2 (h.user v hv),
      fun v hv => (hquantity v hv).2 (h.quantity v hv),
      fun v hv => (hside v hv).2 (h.side v hv), fun v hv => (htype v hv).2 (h.type v hv)⟩

/-- **An order that the parser accepts is the order that the payload spells out exactly when** the
payload gives no symbol, and is refused, or the values that it gives are well formed. -/
theorem text_read_exactly_iff :
    (∀ req, gwParseOrderText strtod payload now = some req → ReadExactly payload req) ↔
      (HasSymbol payload → WellFormedText payload) := by
  by_cases hsym : HasSymbol payload
  · rw [gwParseOrderText_of_hasSymbol strtod payload now hsym, forall_prop_of_true hsym,
      ← readExactly_gwTextRequest_iff strtod payload now]
    constructor
    · intro h
      exact h _ rfl
    · intro h req hreq
      rwa [← Option.some.inj hreq]
  · rw [gwParseOrderText_of_not_hasSymbol strtod payload now hsym]
    exact ⟨fun _ h => absurd h hsym, fun _ req hreq => by cases hreq⟩

end Text

/-- `s=A|d=X|q=4294967297` -/
def malformedPayload : List UInt8 := "s=A|d=X|q=4294967297".toList.map ascii

/-- The parser accepts it, as an order to buy one. -/
theorem malformed_side_accepted :
    ∃ req, gwParseOrderText (fun _ => 0) malformedPayload 0 = some req ∧ req.side = .buy ∧
      req.quantity = 1 ∧ ¬ ReadExactly malformedPayload req := by
  refine ⟨_, rfl, rfl, rfl, fun h => ?_⟩
  have hside := h.side [ascii 'X'] (by decide)
  exact absurd hside (by decide)

end Gateway
