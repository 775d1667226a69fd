/-
**The requests of the gateway and the parsers that read them off a frame.**

`gateway.c` turns the payload of a frame into a `bt_order_request_t` in two ways: the text protocol
is a loop over `key=value` fields separated by `|`, and the binary protocol copies the struct out of
a local buffer that the payload may only partly have filled.  A cancel request is copied field by
field.  The conversion of a price text to a number is a parameter: it is the C library's `strtod`,
followed by the conversion of the double to a `bt_price_t`.

Main definitions:

* `Gateway.OrderRequest`, `Gateway.CancelRequest`, `Gateway.OmsMsg` — what goes to the order
  management;
* `Gateway.strtoull` — the C library's conversion of a numeral;
* `Gateway.gwParseOrderText`, `Gateway.gwParseOrderBinary` — the two parsers.

Main results:

* `Gateway.textLoop_eq_foldl` — the text parser interprets the fields that a scan of the payload
  gives;
* `Gateway.textLoop_unroll` — **the text parser's loop ends by itself**: the bound on its rounds
  never cuts it short.
-/

import Mathlib.Data.List.TakeWhile
import AspiraBroker.FieldScan
import AspiraBroker.RingWindow

set_option relaxedAutoImplicit false
set_option autoImplicit false

namespace Gateway

open Ring

/-- The byte of an ASCII character. -/
def ascii (ch : Char) : UInt8 := UInt8.ofNat ch.toNat

theorem pipe_ne_equals : ascii '|' ≠ ascii '=' := by decide

theorem blank_ne_equals : ascii ' ' ≠ ascii '=' := by decide

/-! ### Requests -/

/-- `bt_side_t`. -/
inductive Side
  | buy
  | sell
  deriving DecidableEq

/-- `bt_order_type_t`. -/
inductive OrderType
  | limit
  | market
  | ioc
  | fok
  deriving DecidableEq

/-- The enumerator with the value `n`, if there is one. -/
def Side.ofRaw : ℕ → Option Side
  | 0 => some .buy
  | 1 => some .sell
  | _ => none

/-- The enumerator with the value `n`, if there is one. -/
def OrderType.ofRaw : ℕ → Option OrderType
  | 0 => some .limit
  | 1 => some .market
  | 2 => some .ioc
  | 3 => some .fok
  | _ => none

/-- A `char symbol[16]`. -/
structure Symbol where
  bytes : List UInt8
  size : bytes.length = 16
  deriving DecidableEq

/-- The symbol field after `memset`. -/
def Symbol.zero : Symbol := ⟨List.replicate 16 0, by simp⟩

/-- `memcpy(symbol, value, sl); symbol[sl] = '\0'`, for the first `sl`, at most `15`, bytes of the
value; what stood behind them stays. -/
def Symbol.store (old : Symbol) (value : List UInt8) : Symbol where
  bytes := value.take 15 ++ 0 :: old.bytes.drop ((value.take 15).length + 1)
  size := by
    have h := List.length_take_le 15 value
    rw [List.length_append, List.length_cons, List.length_drop, old.size]
    omega

/-- The sixteen bytes at a position of a buffer. -/
def Symbol.read (buf : ℕ → UInt8) (pos : ℕ) : Symbol := ⟨slice buf pos 16, by simp⟩

/-- `bt_order_request_t`. -/
structure OrderRequest where
  requestId : UInt64
  userId : UInt64
  symbol : Symbol
  price : Int64
  quantity : UInt32
  side : Side
  type : OrderType
  timestamp : UInt64
  deriving DecidableEq

/-- `bt_cancel_request_t`. -/
structure CancelRequest where
  orderId : UInt64
  userId : UInt64
  symbol : Symbol
  timestamp : UInt64
  deriving DecidableEq

/-- `bt_gw_oms_msg_t`: an order or a cancel, told apart by `msg_type`; the sequence number is zero
at this stage. -/
inductive OmsMsg
  | order (request : OrderRequest)
  | cancel (cancel : CancelRequest)
  deriving DecidableEq

/-! ### Numbers -/

/-- The value of bytes in the machine's order, the lowest first. -/
def leNat (bs : List UInt8) : ℕ := bs.foldr (fun b acc => b.toNat + 256 * acc) 0

/-- The value of bytes in network order, the highest first. -/
def beNat (bs : List UInt8) : ℕ := bs.foldl (fun acc b => 256 * acc + b.toNat) 0

/-- `isspace` in the C locale. -/
def isSpace (b : UInt8) : Bool := b = 32 || (9 ≤ b && b ≤ 13)

/-- `isdigit`. -/
def isDigit (b : UInt8) : Bool := 48 ≤ b && b ≤ 57

/-- The value of the leading decimal digits, zero if there is none. -/
def digitsValue (bs : List UInt8) : ℕ :=
  (bs.takeWhile isDigit).foldl (fun acc b => 10 * acc + (b.toNat - 48)) 0

/-- `strtoull(vb, NULL, 10)`, and `strtoul` with its 64 bits: white space, a sign, digits; a value
out of range gives the largest, a minus sign negates modulo `2 ^ 64`. -/
def strtoull (vb : List UInt8) : UInt64 :=
  let p := vb.dropWhile isSpace
  let negative := p.head? = some (ascii '-')
  let signed := negative ∨ p.head? = some (ascii '+')
  let value := digitsValue (if signed then p.tail else p)
  if 2 ^ 64 ≤ value then UInt64.ofNat (2 ^ 64 - 1)
  else if negative then 0 - UInt64.ofNat value
  else UInt64.ofNat value

/-! ### The text protocol -/

section Text

variable (strtod : List UInt8 → Int64)

/-- One `key=value` field; unknown keys are ignored.  `vb` is the local copy of the value, cut to
`31` bytes; behind its end it reads as zero. -/
def applyField (key value : List UInt8) (req : OrderRequest) : OrderRequest :=
  let vb := value.take 31
  if key = [ascii 'u'] then { req with userId := strtoull vb }
  else if key = [ascii 's'] then { req with symbol := req.symbol.store value }
  else if key = [ascii 'p'] then { req with price := strtod vb }
  else if key = [ascii 'q'] then { req with quantity := (strtoull vb).toUInt32 }
  else if key = [ascii 'd'] then
    { req with
      side := if vb.headD 0 = ascii 'S' ∨ vb.headD 0 = ascii 's' then .sell else .buy }
  else if key = [ascii 't'] then
    { req with
      type :=
        if vb.headD 0 = ascii 'L' then .limit
        else if vb.headD 0 = ascii 'M' then .market
        else if vb.headD 0 = ascii 'I' then .ioc
        else if vb.headD 0 = ascii 'F' then .fok
        else .limit }
  else req

/-- `p` after the separators at the start of a round. -/
def skipSeparators (rest : List UInt8) : List UInt8 :=
  rest.dropWhile fun b => b = ascii '|' || b = ascii ' '

/-- The key: the bytes before the first `=`. -/
def fieldKey (p : List UInt8) : List UInt8 := p.takeWhile (· ≠ ascii '=')

/-- `vs`: what follows the first `=`. -/
def afterKey (p : List UInt8) : List UInt8 := (p.dropWhile (· ≠ ascii '=')).tail

/-- The value: up to the next `|` or the end. -/
def fieldValue (p : List UInt8) : List UInt8 := (afterKey p).takeWhile (· ≠ ascii '|')

/-- `ve`, where the next round starts. -/
def afterField (p : List UInt8) : List UInt8 := (afterKey p).dropWhile (· ≠ ascii '|')

/-- The loop of `gw_parse_order_text` over the bytes `rest` that are left, for at most `fuel`
rounds. -/
def textLoop : ℕ → List UInt8 → OrderRequest → OrderRequest
  | 0, _, req => req
  | fuel + 1, rest, req =>
      let p := skipSeparators rest
      if ascii '=' ∈ p then
        textLoop fuel (afterField p) (applyField strtod (fieldKey p) (fieldValue p) req)
      else req

/-- The request after `memset` and the time stamp. -/
def OrderRequest.blank (now : UInt64) : OrderRequest :=
  ⟨0, 0, .zero, 0, 0, .buy, .limit, now⟩

/-- `gw_parse_order_text`: the request, unless no symbol was given. -/
def gwParseOrderText (payload : List UInt8) (now : UInt64) : Option OrderRequest :=
  let req := textLoop strtod payload.length payload (.blank now)
  if req.symbol.bytes.headD 0 = 0 then none else some req

/-- The marks of the text protocol. -/
def textMarks : Fields.Marks UInt8 :=
  ⟨ascii '|', ascii '=', ascii ' ', pipe_ne_equals, blank_ne_equals⟩

/-- The loop interprets the fields of the scanning reading from left to right. -/
theorem textLoop_eq_foldl (fuel : ℕ) (rest : List UInt8) (req : OrderRequest) :
    textLoop strtod fuel rest req =
      (Fields.scan textMarks fuel rest).foldl (fun r f => applyField strtod f.1 f.2 r) req := by
  induction fuel generalizing rest req with
  | zero => rfl
  | succ fuel ih =>
      simp only [textLoop, Fields.scan]
      by_cases heq : ascii '=' ∈ skipSeparators rest
      · rw [if_pos heq, if_pos (show textMarks.eq ∈ Fields.skip textMarks rest from heq),
          List.foldl_cons]
        exact ih _ _
      · rw [if_neg heq, if_neg (show textMarks.eq ∉ Fields.skip textMarks rest from heq)]
        rfl

/-- **The text parser's loop ends by itself**: it is the unbounded loop of the source, whose rounds
go on as long as there is a `=` ahead. -/
theorem textLoop_unroll (rest : List UInt8) (req : OrderRequest) :
    textLoop strtod rest.length rest req =
      if ascii '=' ∈ skipSeparators rest then
        textLoop strtod (afterField (skipSeparators rest)).length
          (afterField (skipSeparators rest))
          (applyField strtod (fieldKey (skipSeparators rest)) (fieldValue (skipSeparators rest))
            req)
      else req := by
  simp only [textLoop_eq_foldl]
  have hscan := Fields.scanned_eq (M := textMarks) rest
  rw [Fields.scanned] at hscan
  by_cases heq : ascii '=' ∈ skipSeparators rest
  · rw [hscan, if_pos heq, if_pos (show textMarks.eq ∈ Fields.skip textMarks rest from heq),
      List.foldl_cons]
    rfl
  · rw [hscan, if_neg heq, if_neg (show textMarks.eq ∉ Fields.skip textMarks rest from heq)]
    rfl

end Text

/-! ### The binary protocol -/

/-- `sizeof(bt_order_request_t)`: the struct ends with the time stamp at offset `56`, behind four
bytes of padding. -/
def sizeofOrderRequest : ℕ := 64

/-- `gw_parse_order_binary`.  All `64` bytes of the struct are copied out of the buffer `pb`, of
which the frame has filled only the first `len`. -/
def gwParseOrderBinary (pb : ℕ → UInt8) (len : ℕ) (now : UInt64) : Option OrderRequest :=
  if len < 48 ∨ sizeofOrderRequest < len then none
  else
    let symbol := Symbol.read pb 16
    let quantity := UInt32.ofNat (leNat (slice pb 40 4))
    if symbol.bytes.headD 0 = 0 ∨ quantity = 0 then none
    else
      match Side.ofRaw (leNat (slice pb 44 4)), OrderType.ofRaw (leNat (slice pb 48 4)) with
      | some side, some type =>
          some
            { requestId := UInt64.ofNat (leNat (slice pb 0 8))
              userId := UInt64.ofNat (leNat (slice pb 8 8))
              symbol
              price := (UInt64.ofNat (leNat (slice pb 32 8))).toInt64
              quantity
              side
              type
              timestamp := now }
      | _, _ => none

/-- The cancel request that `gw_process_data` copies out of its buffer `cbuf`. -/
def gwCancelRequest (cbuf : ℕ → UInt8) (now : UInt64) : CancelRequest where
  orderId := UInt64.ofNat (leNat (slice cbuf 0 8))
  userId := UInt64.ofNat (leNat (slice cbuf 8 8))
  symbol := Symbol.read cbuf 16
  timestamp := now

end Gateway
