/-
**What the text parser makes of a payload.**

`gw_parse_order_text` looks for the next `=` without regard to `|`, and for the `|` behind it.  The
README describes the payload as fields separated by `|`.  This module reads the request off the
fields: each part of it is what the last value given for its key says.  And it compares the parser
with the reading that splits the payload at every `|` first.  The two agree on every piece with a
`=`, except that a piece without a `=`, unless it is blank, makes the parser lose the next field: in
`s=A|junk|q=5` the quantity belongs to the key `junk|q`, which is no key at all.

Main definitions:

* `Gateway.gwTextRequest` — the request that the parser's loop leaves;
* `Gateway.textFields`, `Gateway.given` — the fields it finds, and the last value of a key;
* `Gateway.splitRequest` — the request of the reading that splits first;
* `Gateway.TextView` — user, symbol, quantity, side and type of a request.

Main results:

* `Gateway.textView_interpret` — **a request says what the last value of each key says**;
* `Gateway.text_fields_independent_iff` — **the two readings agree exactly when**, for every key,
  the last piece with that key is read as the last one that the parser does not lose;
* `Gateway.junk_swallows_quantity` — a payload on which they do not.
-/

import AspiraBroker.GatewayParse

set_option relaxedAutoImplicit false
set_option autoImplicit false

namespace Gateway

open Fields

/-! ### Parts of a request -/

/-- The symbol as a C string. -/
def Symbol.cString (s : Symbol) : List UInt8 := s.bytes.takeWhile (· ≠ 0)

/-- The side that a value for the key `d` gives. -/
def textSide (value : List UInt8) : Side :=
  if (value.take 31).headD 0 = ascii 'S' ∨ (value.take 31).headD 0 = ascii 's' then .sell else .buy

/-- The type that a value for the key `t` gives. -/
def textType (value : List UInt8) : OrderType :=
  if (value.take 31).headD 0 = ascii 'L' then .limit
  else if (value.take 31).headD 0 = ascii 'M' then .market
  else if (value.take 31).headD 0 = ascii 'I' then .ioc
  else if (value.take 31).headD 0 = ascii 'F' then .fok
  else .limit

/-- The C string that a value for the key `s` gives. -/
def textSymbol (value : List UInt8) : List UInt8 := (value.take 15).takeWhile (· ≠ 0)

/-- The number that a value for the key `u` or `q` gives. -/
def textNumber (value : List UInt8) : UInt64 := strtoull (value.take 31)

/-- The parts of a request that the text protocol sets, the price apart. -/
@[ext]
structure TextView where
  userId : UInt64
  symbol : List UInt8
  quantity : UInt32
  side : Side
  type : OrderType
  deriving DecidableEq

/-- The view of a request. -/
def OrderRequest.textView (req : OrderRequest) : TextView :=
  ⟨req.userId, req.symbol.cString, req.quantity, req.side, req.type⟩

/-- The view of a request for which the last value of each key is known; a key that was not given
leaves the zero of `memset`. -/
def viewOf (last : Char → Option (List UInt8)) : TextView where
  userId := ((last 'u').map textNumber).getD 0
  symbol := ((last 's').map textSymbol).getD []
  quantity := ((last 'q').map fun v => (textNumber v).toUInt32).getD 0
  side := ((last 'd').map textSide).getD .buy
  type := ((last 't').map textType).getD .limit

section Text

variable (strtod : List UInt8 → Int64)

/-- The fields, interpreted from left to right. -/
def interpret (fields : List (List UInt8 × List UInt8)) (req : OrderRequest) : OrderRequest :=
  fields.foldl (fun r f => applyField strtod f.1 f.2 r) req

/-- The request that `gw_parse_order_text` leaves, whatever it returns. -/
def gwTextRequest (payload : List UInt8) (now : UInt64) : OrderRequest :=
  textLoop strtod payload.length payload (.blank now)

/-- The fields that the parser finds. -/
def textFields (payload : List UInt8) : List (List UInt8 × List UInt8) :=
  scanned textMarks payload

/-- The last value that the fields give for a one-letter key. -/
def lastGiven (fields : List (List UInt8 × List UInt8)) (key : Char) : Option (List UInt8) :=
  lastValue [ascii key] fields

/-- The last value that the parser finds for a key. -/
def given (payload : List UInt8) (key : Char) : Option (List UInt8) :=
  lastGiven (textFields payload) key

/-- The request of the reading that splits the payload at every `|` first. -/
def splitRequest (payload : List UInt8) (now : UInt64) : OrderRequest :=
  interpret strtod (splitFields textMarks payload) (.blank now)

/-- The pieces between the `|`, and of their fields those that the parser does not lose. -/
def keptFields (payload : List UInt8) : List (List UInt8 × List UInt8) :=
  kept textMarks false (payload.splitOn (ascii '|'))

/-! ### What the fields say -/

theorem gwTextRequest_eq (payload : List UInt8) (now : UInt64) :
    gwTextRequest strtod payload now = interpret strtod (textFields payload) (.blank now) :=
  textLoop_eq_foldl strtod _ _ _

theorem gwParseOrderText_eq (payload : List UInt8) (now : UInt64) :
    gwParseOrderText strtod payload now =
      if (gwTextRequest strtod payload now).symbol.bytes.headD 0 = 0 then none
      else some (gwTextRequest strtod payload now) := rfl

theorem takeWhile_append_zero (bytes rest : List UInt8) :
    (bytes ++ 0 :: rest).takeWhile (· ≠ 0) = bytes.takeWhile (· ≠ 0) := by
  induction bytes with
  | nil => simp
  | cons b bytes ih =>
      by_cases hb : b = 0
      · simp [hb]
      · simpa [hb] using ih

/-- A stored symbol is the value, cut to fifteen bytes and at its first zero. -/
theorem cString_store (old : Symbol) (value : List UInt8) :
    (old.store value).cString = textSymbol value :=
  takeWhile_append_zero _ _

theorem headD_store (old : Symbol) (value : List UInt8) :
    (old.store value).bytes.headD 0 = value.headD 0 := by
  cases value with
  | nil => rfl
  | cons b value => rfl

theorem cString_zero : Symbol.zero.cString = [] := by decide

/-- What a field does to a request: six keys set one part each, any other key sets nothing. -/
inductive Applies (req : OrderRequest) : List UInt8 → List UInt8 → OrderRequest → Prop
  | user (v : List UInt8) : Applies req [ascii 'u'] v { req with userId := textNumber v }
  | symbol (v : List UInt8) : Applies req [ascii 's'] v { req with symbol := req.symbol.store v }
  | price (v : List UInt8) : Applies req [ascii 'p'] v { req with price := strtod (v.take 31) }
  | quantity (v : List UInt8) :
      Applies req [ascii 'q'] v { req with quantity := (textNumber v).toUInt32 }
  | side (v : List UInt8) : Applies req [ascii 'd'] v { req with side := textSide v }
  | type (v : List UInt8) : Applies req [ascii 't'] v { req with type := textType v }
  | other (k v : List UInt8) : Applies req k v req

theorem applies_applyField (req : OrderRequest) (k v : List UInt8) :
    Applies strtod req k v (applyField strtod k v req) := by
  unfold applyField
  by_cases hu : k = [ascii 'u']
  · subst hu
    exact .user v
  rw [if_neg hu]
  by_cases hs : k = [ascii 's']
  · subst hs
    exact .symbol v
  rw [if_neg hs]
  by_cases hp : k = [ascii 'p']
  · subst hp
    exact .price v
  rw [if_neg hp]
  by_cases hq : k = [ascii 'q']
  · subst hq
    exact .quantity v
  rw [if_neg hq]
  by_cases hd : k = [ascii 'd']
  · subst hd
    exact .side v
  rw [if_neg hd]
  by_cases ht : k = [ascii 't']
  · subst ht
    exact .type v
  rw [if_neg ht]
  exact .other k v

section Parts

variable (fields : List (List UInt8 × List UInt8)) (req : OrderRequest)

/-- A part of a request that one key alone sets comes from the last field with that key. -/
theorem part_interpret {β : Type} {π : OrderRequest → β} {key : Char} {read : List UInt8 → β}
    (hset : ∀ r v, π (applyField strtod [ascii key] v r) = read v)
    (hkeep : ∀ r k v r', Applies strtod r k v r' → k ≠ [ascii key] → π r' = π r) :
    π (interpret strtod fields req) = ((lastGiven fields key).map read).getD (π req) :=
  foldl_eq_lastValue (π := π) hset
    (fun r k v hk => hkeep r k v _ (applies_applyField strtod r k v) hk) fields req

/-- The user comes from the last field `u`. -/
theorem userId_interpret : (interpret strtod fields req).userId =
    ((lastGiven fields 'u').map textNumber).getD req.userId := by
  refine part_interpret strtod fields req (fun r v => rfl) ?_
  intro r k v r' h hk
  cases h with
  | user => exact absurd rfl hk
  | _ => rfl

/-- The quantity comes from the last field `q`. -/
theorem quantity_interpret : (interpret strtod fields req).quantity =
    ((lastGiven fields 'q').map fun v => (textNumber v).toUInt32).getD req.quantity := by
  refine part_interpret strtod fields req (fun r v => rfl) ?_
  intro r k v r' h hk
  cases h with
  | quantity => exact absurd rfl hk
  | _ => rfl

/-- The side comes from the last field `d`. -/
theorem side_interpret : (interpret strtod fields req).side =
    ((lastGiven fields 'd').map textSide).getD req.side := by
  refine part_interpret strtod fields req (fun r v => rfl) ?_
  intro r k v r' h hk
  cases h with
  | side => exact absurd rfl hk
  | _ => rfl

/-- The type comes from the last field `t`. -/
theorem type_interpret : (interpret strtod fields req).type =
    ((lastGiven fields 't').map textType).getD req.type := by
  refine part_interpret strtod fields req (fun r v => rfl) ?_
  intro r k v r' h hk
  cases h with
  | type => exact absurd rfl hk
  | _ => rfl

/-- The price comes from the last field `p`. -/
theorem price_interpret : (interpret strtod fields req).price =
    ((lastGiven fields 'p').map fun v => strtod (v.take 31)).getD req.price := by
  refine part_interpret strtod fields req (fun r v => rfl) ?_
  intro r k v r' h hk
  cases h with
  | price => exact absurd rfl hk
  | _ => rfl

/-- A field with another key than `s` leaves the symbol alone. -/
theorem Applies.symbol_eq {k v : List UInt8} {req' : OrderRequest}
    (h : Applies strtod req k v req') (hk : k ≠ [ascii 's']) : req'.symbol = req.symbol := by
  cases h with
  | symbol => exact absurd rfl hk
  | _ => rfl

/-- The symbol, as a C string, comes from the last field `s`. -/
theorem symbol_interpret : (interpret strtod fields req).symbol.cString =
    ((lastGiven fields 's').map textSymbol).getD req.symbol.cString :=
  part_interpret strtod fields req (π := fun r => r.symbol.cString)
    (fun r v => cString_store r.symbol v)
    fun r _ _ _ h hk => congrArg Symbol.cString (h.symbol_eq strtod r hk)

/-- So does its first byte, by which the parser decides whether there is one. -/
theorem symbol_head_interpret : (interpret strtod fields req).symbol.bytes.headD 0 =
    ((lastGiven fields 's').map (·.headD 0)).getD (req.symbol.bytes.headD 0) :=
  part_interpret strtod fields req (π := fun r => r.symbol.bytes.headD 0)
    (fun r v => headD_store r.symbol v)
    fun r _ _ _ h hk => congrArg (fun s : Symbol => s.bytes.headD 0) (h.symbol_eq strtod r hk)

end Parts

/-- **A request says what the last value of each key says.** -/
theorem textView_interpret (fields : List (List UInt8 × List UInt8)) (now : UInt64) :
    (interpret strtod fields (.blank now)).textView = viewOf (lastGiven fields) := by
  ext1
  · exact userId_interpret strtod fields _
  · exact (symbol_interpret strtod fields _).trans (congrArg _ cString_zero)
  · exact quantity_interpret strtod fields _
  · exact side_interpret strtod fields _
  · exact type_interpret strtod fields _

/-! ### The two readings -/

/-- A field whose key has a `|` in it changes nothing. -/
theorem applyField_of_mem {k v : List UInt8} (hk : ascii '|' ∈ k) (req : OrderRequest) :
    applyField strtod k v req = req := by
  have h := applies_applyField strtod req k v
  generalize applyField strtod k v req = req' at h ⊢
  cases h with
  | other => rfl
  | _ => exact absurd hk (by decide)

/-- The parser interprets the fields of the pieces that it does not lose. -/
theorem gwTextRequest_eq_kept (payload : List UInt8) (now : UInt64) :
    gwTextRequest strtod payload now = interpret strtod (keptFields payload) (.blank now) := by
  have hfilter : keptFields payload = (textFields payload).filter (ascii '|' ∉ ·.1) :=
    (filter_scanned (M := textMarks) payload).symm
  rw [gwTextRequest_eq, hfilter]
  generalize OrderRequest.blank now = req
  induction textFields payload generalizing req with
  | nil => rfl
  | cons field fields ih =>
      by_cases hk : ascii '|' ∈ field.1
      · rw [List.filter_cons_of_neg (by simpa using hk), ← ih]
        exact congrArg (interpret strtod fields) (applyField_of_mem strtod hk req)
      · rw [List.filter_cons_of_pos (by simpa using hk)]
        exact ih _

/-- The keys of the view. -/
def textKeys : List Char := ['u', 's', 'q', 'd', 't']

/-- What a single value for a key says. -/
def reading (key : Char) (value : Option (List UInt8)) : TextView :=
  viewOf fun k => if k = key then value else none

/-- Two views are the same exactly when every key says the same. -/
theorem viewOf_eq_iff (last last' : Char → Option (List UInt8)) :
    viewOf last = viewOf last' ↔
      ∀ key ∈ textKeys, reading key (last key) = reading key (last' key) := by
  simp [TextView.ext_iff, viewOf, reading, textKeys]

/-- **The parser reads the fields of a payload independently exactly when**, for every key, the
last piece with that key is read as the last one that does not come, blank pieces aside, behind a
piece without a `=`. -/
theorem text_fields_independent_iff (payload : List UInt8) (now : UInt64) :
    (gwTextRequest strtod payload now).textView = (splitRequest strtod payload now).textView ↔
      ∀ key ∈ textKeys,
        reading key (lastGiven (keptFields payload) key) =
          reading key (lastGiven (splitFields textMarks payload) key) := by
  rw [gwTextRequest_eq_kept, splitRequest, textView_interpret, textView_interpret, viewOf_eq_iff]

/-- `s=A|junk|q=5` -/
def junkPayload : List UInt8 := "s=A|junk|q=5".toList.map ascii

/-- The parser accepts an order of quantity `0` where the fields say `5`. -/
theorem junk_swallows_quantity :
    (gwParseOrderText (fun _ => 0) junkPayload 0).map OrderRequest.textView =
        some ⟨0, [ascii 'A'], 0, .buy, .limit⟩ ∧
      (splitRequest (fun _ => 0) junkPayload 0).textView =
        ⟨0, [ascii 'A'], 5, .buy, .limit⟩ := by
  decide

end Text

end Gateway
