/-
**Binary orders and the bytes that stood in the buffer.**

A binary order is a `bt_order_request_t` of sixty-four bytes, but the gateway accepts a frame from
forty-eight bytes on and copies sixty-four bytes out of a local buffer that the frame has only
partly filled.  The fields before the type lie in the first forty-eight bytes.  The type lies in the
four behind them, so a frame of forty-eight to fifty-one bytes is read with some of its type from
whatever an earlier frame left on the stack; `docs/optimization_report.md` has the gateway validate
the exact size instead.

The symbol is copied as sixteen raw bytes, for orders and for cancels.  The binary parser looks at
the first byte of it only, and for a cancel nobody looks at it at all; the text parser always leaves
a terminated string.

Main definitions:

* `Gateway.BinaryRefused` — no content of the buffer makes the parser accept the payload;
* `Gateway.Symbol.Usable` — the symbol is not empty, and ends.

Main results:

* `Gateway.gwParseOrderBinary_eq_none_iff` — when a binary order is refused;
* `Gateway.binary_order_is_what_was_sent_iff` — **a binary frame is handled independently of what
  stood in the buffer exactly when** it has all fields or is refused in any case;
* `Gateway.symbols_usable_iff` — **the messages for a frame carry a usable symbol exactly when** the
  sixteen bytes are one;
* `Gateway.short_order_depends_on_stack`, `Gateway.unusable_symbols_enqueued` — frames for which it
  is not so.
-/

import AspiraBroker.GatewayFields
import AspiraBroker.GatewayTraffic

set_option relaxedAutoImplicit false
set_option autoImplicit false

namespace Gateway

open Ring

/-! ### Bytes in the machine's order -/

theorem leNat_append (a b : List UInt8) :
    leNat (a ++ b) = leNat a + 256 ^ a.length * leNat b := by
  induction a with
  | nil => simp [leNat]
  | cons x a ih =>
      change x.toNat + 256 * leNat (a ++ b) =
        x.toNat + 256 * leNat a + 256 ^ (a.length + 1) * leNat b
      rw [ih, Nat.mul_add, Nat.pow_succ, Nat.mul_comm (256 ^ a.length) 256, Nat.mul_assoc,
        Nat.add_assoc]

theorem leNat_lt (bs : List UInt8) : leNat bs < 256 ^ bs.length := by
  induction bs with
  | nil => simp [leNat]
  | cons b bs ih =>
      have hb := b.toNat_lt
      change b.toNat + 256 * leNat bs < 256 ^ (bs.length + 1)
      rw [Nat.pow_succ]
      omega

/-! ### When a binary order is refused -/

theorem Side.ofRaw_eq_none_iff (n : ℕ) : Side.ofRaw n = none ↔ 1 < n := by
  match n with
  | 0 | 1 => simp [Side.ofRaw]
  | n + 2 => simp [Side.ofRaw]

theorem OrderType.ofRaw_eq_none_iff (n : ℕ) : OrderType.ofRaw n = none ↔ 3 < n := by
  match n with
  | 0 | 1 | 2 | 3 => simp [OrderType.ofRaw]
  | n + 4 => simp [OrderType.ofRaw]

/-- The bytes of a field of the payload. -/
def fieldBytes (payload : List UInt8) (pos k : ℕ) : List UInt8 := (payload.drop pos).take k

theorem length_fieldBytes {payload : List UInt8} {pos k : ℕ} (h : pos + k ≤ payload.length) :
    (fieldBytes payload pos k).length = k := by
  rw [fieldBytes, List.length_take, List.length_drop]
  omega

theorem headD_fieldBytes (payload : List UInt8) :
    (fieldBytes payload 16 16).headD 0 = payload.getD 16 0 := by
  rw [fieldBytes, List.headD_eq_head?_getD, List.head?_take, List.head?_drop]
  rfl

/-- The symbol lies within what the frame has filled. -/
theorem symbol_read (stale : ℕ → UInt8) {payload : List UInt8} (h : 32 ≤ payload.length) :
    (Symbol.read (fill stale 0 payload) 16).bytes = fieldBytes payload 16 16 := slice_fill_eq h

theorem quantity_eq_zero_iff {bs : List UInt8} (h : bs.length = 4) :
    UInt32.ofNat (leNat bs) = 0 ↔ leNat bs = 0 := by
  have hlt := leNat_lt bs
  rw [h] at hlt
  rw [← UInt32.toNat_inj, UInt32.toNat_ofNat', Nat.mod_eq_of_lt (by omega)]
  rfl

/-- A binary order is refused for its length, for want of a symbol or a quantity, for its side, or
for its type, which alone may lie behind the end of the payload. -/
theorem gwParseOrderBinary_eq_none_iff (stale : ℕ → UInt8) (payload : List UInt8) (now : UInt64) :
    gwParseOrderBinary (fill stale 0 payload) payload.length now = none ↔
      payload.length < 48 ∨ 64 < payload.length ∨ payload.getD 16 0 = 0 ∨
        leNat (fieldBytes payload 40 4) = 0 ∨ 1 < leNat (fieldBytes payload 44 4) ∨
        3 < leNat (slice (fill stale 0 payload) 48 4) := by
  by_cases hlen : payload.length < 48 ∨ sizeofOrderRequest < payload.length
  · rw [gwParseOrderBinary, if_pos hlen]
    exact iff_of_true rfl (hlen.imp_right Or.inl)
  · obtain ⟨hlong, hshort⟩ := not_or.1 hlen
    have hsize : sizeofOrderRequest = 64 := rfl
    have hsymbol : (Symbol.read (fill stale 0 payload) 16).bytes.headD 0 = payload.getD 16 0 := by
      rw [symbol_read stale (by omega), headD_fieldBytes]
    have hquantity := quantity_eq_zero_iff
      (length_fieldBytes (show 40 + 4 ≤ payload.length by omega))
    have hq : slice (fill stale 0 payload) 40 4 = fieldBytes payload 40 4 :=
      slice_fill_eq (by omega)
    have hs : slice (fill stale 0 payload) 44 4 = fieldBytes payload 44 4 :=
      slice_fill_eq (by omega)
    rw [gwParseOrderBinary, if_neg hlen]
    simp only [hsymbol, hq, hs, hquantity]
    have hlast : ∀ {p : Prop}, (payload.length < 48 ∨ 64 < payload.length ∨ p) ↔ p := by
      intro p
      rw [or_iff_right hlong, or_iff_right (show ¬ 64 < payload.length from hshort)]
    rw [hlast, ← Side.ofRaw_eq_none_iff, ← OrderType.ofRaw_eq_none_iff]
    by_cases hreject : payload.getD 16 0 = 0 ∨ leNat (fieldBytes payload 40 4) = 0
    · rw [if_pos hreject]
      exact iff_of_true rfl (hreject.imp_right Or.inl)
    · rw [if_neg hreject]
      obtain ⟨hsym, hqty⟩ := not_or.1 hreject
      rw [or_iff_right hsym, or_iff_right hqty]
      cases Side.ofRaw (leNat (fieldBytes payload 44 4)) with
      | none => simp
      | some side =>
          cases OrderType.ofRaw (leNat (slice (fill stale 0 payload) 48 4)) with
          | none => simp
          | some type => simp

/-- No content of the buffer makes the parser accept the payload: it has the wrong length, no
symbol, no quantity, no side, or as much as it has of a type is none. -/
def BinaryRefused (payload : List UInt8) : Prop :=
  payload.length < 48 ∨ 64 < payload.length ∨ payload.getD 16 0 = 0 ∨
    leNat (fieldBytes payload 40 4) = 0 ∨ 1 < leNat (fieldBytes payload 44 4) ∨
    3 < leNat (fieldBytes payload 48 4)

instance (payload : List UInt8) : Decidable (BinaryRefused payload) :=
  inferInstanceAs (Decidable (_ ∨ _))

/-- The type that is read is at least as large as the part of it that the payload has. -/
theorem leNat_fieldBytes_le (stale : ℕ → UInt8) {payload : List UInt8} (h : 48 ≤ payload.length) :
    leNat (fieldBytes payload 48 4) ≤ leNat (slice (fill stale 0 payload) 48 4) := by
  rcases Nat.lt_or_ge payload.length 52 with hshort | hlong
  · rw [slice_fill_append h (by omega), leNat_append, fieldBytes,
      List.take_of_length_le (by simp; omega)]
    exact Nat.le_add_right _ _
  · rw [slice_fill_eq (by omega), fieldBytes]

/-- It is just that over a buffer of zeros. -/
theorem leNat_slice_zero {payload : List UInt8} (h : 48 ≤ payload.length) :
    leNat (slice (fill (fun _ => 0) 0 payload) 48 4) = leNat (fieldBytes payload 48 4) := by
  rcases Nat.lt_or_ge payload.length 52 with hshort | hlong
  · have hzero : ∀ n m, leNat (slice (fun _ => 0) n m) = 0 := by
      intro n m
      induction m generalizing n with
      | zero => rfl
      | succ m ih =>
          rw [slice_succ]
          change (0 : UInt8).toNat + 256 * leNat (slice (fun _ => 0) (n + 1) m) = 0
          rw [ih]
          rfl
    rw [slice_fill_append h (by omega), leNat_append, hzero, fieldBytes,
      List.take_of_length_le (by simp; omega), Nat.mul_zero, Nat.add_zero]
  · rw [slice_fill_eq (by omega), fieldBytes]

/-- It is no type over a buffer of ones, if the payload has not all of it. -/
theorem three_lt_leNat_slice_ones {payload : List UInt8} (h : 48 ≤ payload.length)
    (hshort : payload.length < 52) :
    3 < leNat (slice (fill (fun _ => 255) 0 payload) 48 4) := by
  obtain ⟨m, hm⟩ : ∃ m, 48 + 4 - payload.length = m + 1 := ⟨51 - payload.length, by omega⟩
  rw [slice_fill_append h (by omega), leNat_append, hm, slice_succ]
  change 3 < _ + _ * ((255 : UInt8).toNat + 256 * leNat (slice (fun _ => 255) _ m))
  have hpos : 1 ≤ 256 ^ (payload.drop 48).length := Nat.one_le_pow _ _ (by decide)
  have hmul := Nat.mul_le_mul_right ((255 : UInt8).toNat +
    256 * leNat (slice (fun _ => 255) (payload.length + 1) m)) hpos
  have hval : (255 : UInt8).toNat = 255 := rfl
  omega

/-- A payload is refused whatever stands in the buffer exactly when it is refused over zeros. -/
theorem binaryRefused_iff (payload : List UInt8) (now : UInt64) :
    BinaryRefused payload ↔
      gwParseOrderBinary (fill (fun _ => 0) 0 payload) payload.length now = none := by
  rw [gwParseOrderBinary_eq_none_iff, BinaryRefused]
  rcases Nat.lt_or_ge payload.length 48 with hshort | hlong
  · exact iff_of_true (Or.inl hshort) (Or.inl hshort)
  · rw [leNat_slice_zero hlong]

theorem gwParseOrderBinary_of_refused {payload : List UInt8} (h : BinaryRefused payload)
    (stale : ℕ → UInt8) (now : UInt64) :
    gwParseOrderBinary (fill stale 0 payload) payload.length now = none := by
  rw [gwParseOrderBinary_eq_none_iff]
  rcases Nat.lt_or_ge payload.length 48 with hshort | hlong
  · exact Or.inl hshort
  · have hle := leNat_fieldBytes_le stale hlong
    refine h.imp_right (Or.imp_right (Or.imp_right (Or.imp_right (Or.imp_right ?_))))
    intro htype
    omega

/-! ### Binary frames -/

/-- The binary frame with that payload. -/
def binaryFrame (payload : List UInt8) : Frame := ⟨ascii 'B', payload⟩

/-- What a binary frame asks for on an authenticated connection when nothing else fails. -/
theorem frameRequest_binary (stale : ℕ → UInt8) (payload : List UInt8) :
    frameRequest { FrameEnv.calm with stale := stale } true (binaryFrame payload) =
      ((gwParseOrderBinary (fill stale 0 payload) payload.length 0).map Request.order).getD
        .skip := by
  have hA : ¬ ascii 'B' = ascii 'A' := by decide
  have hmem : ¬ (8192 < payload.length ∧ FrameEnv.calm.mallocOk = false) := fun h => nomatch h.2
  simp only [frameRequest, binaryFrame, if_neg hA, if_neg hmem, Bool.true_eq_false, if_false,
    or_true, if_true, show FrameEnv.calm.stamp = 0 from rfl]
  cases gwParseOrderBinary (fill stale 0 payload) payload.length 0 with
  | none => rfl
  | some req => rfl

/-- Only the parser sees what stood in the buffer. -/
theorem frameRequest_binary_congr {env : FrameEnv} {stale : ℕ → UInt8} {payload : List UInt8}
    (h : gwParseOrderBinary (fill stale 0 payload) payload.length env.stamp =
      gwParseOrderBinary (fill env.stale 0 payload) payload.length env.stamp)
    (authenticated : Bool) :
    frameRequest { env with stale := stale } authenticated (binaryFrame payload) =
      frameRequest env authenticated (binaryFrame payload) := by
  have hA : ¬ ascii 'B' = ascii 'A' := by decide
  simp only [frameRequest, binaryFrame, if_neg hA, or_true, if_true, h]

/-- A connection that is authenticated, and within its rate. -/
def freshConn : Conn := { Conn.blank 0 with authenticated := true }

/-- On a fresh gateway every order is enqueued. -/
theorem passes_fresh {env : FrameEnv} (req : OrderRequest) :
    Passes env Ctx.blank freshConn req := by
  refine ⟨?_, fun hid hseen => hid hseen.symm⟩
  have hrate : 0 < btCfgRateLimitRps := by decide
  change (freshConn.rateWindow env.now).rateCount < btCfgRateLimitRps
  unfold Conn.rateWindow
  split <;> exact hrate

/-- **A binary frame is handled independently of what stood in the buffer exactly when** it has all
fields, or is refused whatever stood there. -/
theorem binary_order_is_what_was_sent_iff (payload : List UInt8) :
    (∀ env g c stale, gwHandle { env with stale := stale } g c (binaryFrame payload) =
        gwHandle env g c (binaryFrame payload)) ↔
      52 ≤ payload.length ∨ BinaryRefused payload := by
  constructor
  · intro h
    by_contra hnot
    obtain ⟨hshort, hrefused⟩ := not_or.1 hnot
    have hlong : 48 ≤ payload.length := Nat.not_lt.1 fun hlt => hrefused (Or.inl hlt)
    -- over zeros it is an order, over ones it is not
    obtain ⟨req, hreq⟩ := Option.ne_none_iff_exists'.1 (mt (binaryRefused_iff payload 0).2 hrefused)
    have hnone : gwParseOrderBinary (fill (fun _ => 255) 0 payload) payload.length 0 = none :=
      (gwParseOrderBinary_eq_none_iff _ _ _).2 (Or.inr (Or.inr (Or.inr (Or.inr (Or.inr
        (three_lt_leNat_slice_ones hlong (Nat.not_le.1 hshort)))))))
    have heq := h .calm .blank freshConn fun _ => 255
    have hzeros : frameRequest .calm true (binaryFrame payload) = .order req := by
      have hcalm := frameRequest_binary (fun _ => 0) payload
      rwa [hreq] at hcalm
    have hones : frameRequest { FrameEnv.calm with stale := fun _ => 255 } true
        (binaryFrame payload) = .skip := by
      rw [frameRequest_binary, hnone]
      rfl
    rw [gwHandle_eq, gwHandle_eq, show freshConn.authenticated = true from rfl, hones,
      hzeros] at heq
    have hqueue := congrArg (Option.map fun r : Ctx × Conn => r.1.enqueued.length) heq
    simp only [gwServe, Option.map_some, enqueued_gwPushOrder, passes_fresh] at hqueue
    simp [Ctx.blank, FrameEnv.calm] at hqueue
  · intro hcase env g c stale
    have hparse : gwParseOrderBinary (fill stale 0 payload) payload.length env.stamp =
        gwParseOrderBinary (fill env.stale 0 payload) payload.length env.stamp := by
      rcases hcase with hlong | hrefused
      · exact gwParseOrderBinary_congr (fun _ pos k hle => slice_fill_congr (by omega)) _
      · rw [gwParseOrderBinary_of_refused hrefused, gwParseOrderBinary_of_refused hrefused]
    rw [gwHandle_eq, gwHandle_eq, frameRequest_binary_congr hparse]
    cases frameRequest env c.authenticated (binaryFrame payload) <;> rfl

/-- A buy order of one share, cut off behind its side. -/
def shortOrder : List UInt8 :=
  List.replicate 16 0 ++ ascii 'A' :: List.replicate 23 0 ++ [1, 0, 0, 0, 0, 0, 0, 0]

/-- The frame is an order over a clear buffer, and refused over another. -/
theorem short_order_depends_on_stack :
    (gwHandle .calm .blank freshConn (binaryFrame shortOrder)).map
        (fun r => r.1.enqueued.length) = some 1 ∧
      (gwHandle { FrameEnv.calm with stale := fun _ => 255 } .blank freshConn
        (binaryFrame shortOrder)).map (fun r => r.1.enqueued.length) = some 0 := by
  decide

/-! ### Symbols -/

/-- The symbol is not empty, and ends within its sixteen bytes. -/
def Symbol.Usable (s : Symbol) : Prop := s.bytes.headD 0 ≠ 0 ∧ 0 ∈ s.bytes

/-- The symbol of a message. -/
def OmsMsg.symbol : OmsMsg → Symbol
  | .order req => req.symbol
  | .cancel req => req.symbol

/-- Every message that is enqueued for the frame has a usable symbol. -/
def EnqueuesUsable (f : Frame) : Prop :=
  ∀ env g c g' c', gwHandle env g c f = some (g', c') →
    ∀ e ∈ g'.enqueued.drop g.enqueued.length, e.msg.symbol.Usable

theorem zero_mem_store (old : Symbol) (value : List UInt8) : 0 ∈ (old.store value).bytes :=
  List.mem_append_right _ List.mem_cons_self

/-- The symbol of a text order always ends. -/
theorem zero_mem_interpret (strtod : List UInt8 → Int64) (fields : List (List UInt8 × List UInt8))
    {req : OrderRequest} (h : 0 ∈ req.symbol.bytes) :
    0 ∈ (interpret strtod fields req).symbol.bytes := by
  induction fields generalizing req with
  | nil => exact h
  | cons field fields ih =>
      refine ih ?_
      by_cases hs : field.1 = [ascii 's']
      · change 0 ∈ (applyField strtod field.1 field.2 req).symbol.bytes
        rw [hs]
        exact zero_mem_store _ _
      · change 0 ∈ (applyField strtod field.1 field.2 req).symbol.bytes
        rwa [(applies_applyField strtod req field.1 field.2).symbol_eq strtod req hs]

theorem usable_of_gwParseOrderText {strtod : List UInt8 → Int64} {payload : List UInt8}
    {now : UInt64} {req : OrderRequest} (h : gwParseOrderText strtod payload now = some req) :
    req.symbol.Usable := by
  have hzero : 0 ∈ (OrderRequest.blank now).symbol.bytes :=
    List.mem_replicate.2 ⟨by decide, rfl⟩
  rw [gwParseOrderText_eq] at h
  split at h
  · cases h
  next hne =>
    obtain rfl := Option.some.inj h
    refine ⟨hne, ?_⟩
    rw [gwTextRequest_eq]
    exact zero_mem_interpret _ _ hzero

/-- The symbol of a binary order is the sixteen bytes of the payload, and not empty. -/
theorem symbol_of_gwParseOrderBinary {stale : ℕ → UInt8} {payload : List UInt8} {now : UInt64}
    {req : OrderRequest}
    (h : gwParseOrderBinary (fill stale 0 payload) payload.length now = some req) :
    req.symbol.bytes = fieldBytes payload 16 16 ∧ req.symbol.bytes.headD 0 ≠ 0 := by
  simp only [gwParseOrderBinary] at h
  split_ifs at h with hlen hreject
  split at h
  · obtain rfl := Option.some.inj h
    obtain ⟨hlong, -⟩ := not_or.1 hlen
    exact ⟨symbol_read stale (by omega), (not_or.1 hreject).1⟩
  · cases h

/-- The symbol of the message that a request asks for. -/
def Request.symbol : Request → Option Symbol
  | .order req => some req.symbol
  | .cancel req => some req.symbol
  | .noMemory | .skip | .auth => none

theorem frameRequest_symbol_false (env : FrameEnv) (f : Frame) :
    (frameRequest env false f).symbol = none := by
  simp only [frameRequest]
  split_ifs <;> rfl

/-- Every message for a request has the symbol of the request. -/
theorem symbol_of_mem_messages {env : FrameEnv} {g : Ctx} {c : Conn} {r : Request} {msg : OmsMsg}
    (h : msg ∈ r.messages env g c) : r.symbol = some msg.symbol := by
  cases r with
  | noMemory | skip | auth => simp [Request.messages] at h
  | order req | cancel req =>
      rw [Request.messages] at h
      split at h
      · obtain rfl := List.mem_singleton.1 h
        rfl
      · simp at h

/-- A request with a symbol is served on a fresh gateway, and leads to a message. -/
theorem exists_enqueued_of_symbol {env : FrameEnv} (hpush : env.pushOk = true) {r : Request}
    {s : Symbol} (h : r.symbol = some s) :
    ∃ g' c', gwServe env .blank freshConn r = some (g', c') ∧
      ∃ e ∈ g'.enqueued, e.msg.symbol = s := by
  cases r with
  | noMemory | skip | auth => cases h
  | order req =>
      let served := gwPushOrder env .blank freshConn req
      refine ⟨served.1, served.2, rfl, ⟨.order req, freshConn.handled⟩, ?_, Option.some.inj h⟩
      rw [enqueued_gwPushOrder, if_pos ⟨passes_fresh req, hpush⟩]
      exact List.mem_append_right _ List.mem_cons_self
  | cancel req =>
      refine ⟨_, _, rfl, ⟨.cancel req, freshConn.handled⟩, ?_, Option.some.inj h⟩
      rw [enqueued_push, if_pos hpush]
      exact List.mem_append_right _ List.mem_cons_self

/-- Whether the messages carry usable symbols is a matter of what the frame asks for. -/
theorem enqueuesUsable_iff (f : Frame) :
    EnqueuesUsable f ↔ ∀ env s, (frameRequest env true f).symbol = some s → s.Usable := by
  constructor
  · intro h env s hs
    have hpush : ({ env with pushOk := true } : FrameEnv).pushOk = true := rfl
    obtain ⟨g', c', hserve, e, he, rfl⟩ := exists_enqueued_of_symbol hpush hs
    refine h { env with pushOk := true } .blank freshConn g' c' ?_ e he
    rw [gwHandle_eq]
    exact hserve
  · intro h env g c g' c' hhandle e he
    rw [gwHandle_eq] at hhandle
    rw [enqueued_gwServe hhandle, List.drop_left] at he
    obtain ⟨msg, hmsg, rfl⟩ := List.mem_map.1 he
    have hsymbol := symbol_of_mem_messages hmsg
    cases hauth : c.authenticated with
    | false =>
        rw [hauth, frameRequest_symbol_false] at hsymbol
        cases hsymbol
    | true =>
        rw [hauth] at hsymbol
        exact h env _ hsymbol

/-- The symbol of a cancel is sixteen bytes of the payload. -/
theorem symbol_gwCancelRequest {payload : List UInt8} (hlen : 32 ≤ payload.length)
    (stale : ℕ → UInt8) (now : UInt64) :
    (gwCancelRequest (fill stale 0 (payload.take 64)) now).symbol.bytes =
      fieldBytes payload 16 16 := by
  change (Symbol.read (fill stale 0 (payload.take 64)) 16).bytes = _
  rw [symbol_read stale (by rw [List.length_take]; omega), fieldBytes, List.drop_take,
    List.take_take]
  rfl

/-- What a frame says that carries a symbol. -/
theorem symbol_frameRequest_cases {env : FrameEnv} {f : Frame} {s : Symbol}
    (h : (frameRequest env true f).symbol = some s) :
    s.Usable ∨
      (f.msgType = ascii 'B' ∧ ¬ BinaryRefused f.payload ∧
        s.bytes = fieldBytes f.payload 16 16 ∧ s.bytes.headD 0 ≠ 0) ∨
      (f.msgType = ascii 'C' ∧ 32 ≤ f.payload.length ∧ s.bytes = fieldBytes f.payload 16 16) := by
  simp only [frameRequest, Bool.true_eq_false, if_false] at h
  split_ifs at h with hA hnomem hkey hOB hnomem hB hC hlen
  any_goals cases h
  · split at h
    next req hreq =>
      obtain rfl := Option.some.inj h
      have hok : ¬ BinaryRefused f.payload := fun hrefused => by
        rw [gwParseOrderBinary_of_refused hrefused] at hreq
        cases hreq
      exact Or.inr (Or.inl ⟨hB, hok, symbol_of_gwParseOrderBinary hreq⟩)
    · cases h
  · split at h
    next req hreq =>
      obtain rfl := Option.some.inj h
      exact Or.inl (usable_of_gwParseOrderText hreq)
    · cases h
  · exact Or.inr (Or.inr ⟨hC, hlen, symbol_gwCancelRequest hlen _ _⟩)

/-- A frame that would be a cancel is one. -/
theorem frameRequest_cancel (env : FrameEnv) {payload : List UInt8} (hlen : 32 ≤ payload.length) :
    frameRequest env true ⟨ascii 'C', payload⟩ =
      .cancel (gwCancelRequest (fill env.stale 0 (payload.take 64)) env.stamp) := by
  have hA : ¬ ascii 'C' = ascii 'A' := by decide
  have hOB : ¬ (ascii 'C' = ascii 'O' ∨ ascii 'C' = ascii 'B') := by decide
  simp only [frameRequest, if_neg hA, if_neg hOB, Bool.true_eq_false, if_false, if_true,
    if_pos hlen]

/-- **The messages for a frame carry a usable symbol exactly when** its sixteen bytes are one, if
they are ever looked at: those of a binary order must end, those of a cancel must also not be
empty.  A text order needs no condition. -/
theorem symbols_usable_iff (f : Frame) :
    EnqueuesUsable f ↔
      (f.msgType = ascii 'B' → BinaryRefused f.payload ∨ 0 ∈ fieldBytes f.payload 16 16) ∧
        (f.msgType = ascii 'C' → f.payload.length < 32 ∨
          (f.payload.getD 16 0 ≠ 0 ∧ 0 ∈ fieldBytes f.payload 16 16)) := by
  rw [enqueuesUsable_iff]
  constructor
  · intro h
    obtain ⟨msgType, payload⟩ := f
    refine ⟨?_, ?_⟩
    · rintro rfl
      refine or_iff_not_imp_left.2 fun hrefused => ?_
      -- over a clear buffer it is an order
      obtain ⟨req, hreq⟩ :=
        Option.ne_none_iff_exists'.1 (mt (binaryRefused_iff payload 0).2 hrefused)
      have hrequest := frameRequest_binary (fun _ => 0) payload
      rw [hreq] at hrequest
      have husable := h .calm req.symbol (congrArg Request.symbol hrequest)
      rw [← (symbol_of_gwParseOrderBinary hreq).1]
      exact husable.2
    · rintro rfl
      refine or_iff_not_imp_left.2 fun hshort => ?_
      have hlen := Nat.not_lt.1 hshort
      have husable := h .calm _ (congrArg Request.symbol (frameRequest_cancel .calm hlen))
      rw [Symbol.Usable, symbol_gwCancelRequest hlen, headD_fieldBytes] at husable
      exact husable
  · rintro ⟨hbinary, hcancel⟩ env s hs
    rcases symbol_frameRequest_cases hs with husable | ⟨htype, hok, hbytes, hhead⟩ |
      ⟨htype, hlen, hbytes⟩
    · exact husable
    · exact ⟨hhead, hbytes ▸ (hbinary htype).resolve_left hok⟩
    · obtain ⟨hhead, hzero⟩ := (hcancel htype).resolve_left (Nat.not_lt.2 hlen)
      rw [← headD_fieldBytes, ← hbytes] at hhead
      exact ⟨hhead, hbytes ▸ hzero⟩

/-- A binary order of one share whose symbol fills all sixteen bytes. -/
def endlessSymbol : List UInt8 :=
  List.replicate 16 0 ++ List.replicate 16 (ascii 'A') ++ List.replicate 8 0 ++ [1] ++
    List.replicate 23 0

/-- A binary order whose symbol does not end is enqueued, and so is a cancel without a symbol. -/
theorem unusable_symbols_enqueued :
    (∃ r, gwHandle .calm .blank freshConn (binaryFrame endlessSymbol) = some r ∧
      r.1.enqueued.map (fun e => e.msg.symbol.bytes) = [List.replicate 16 (ascii 'A')]) ∧
      ∃ r, gwHandle .calm .blank freshConn ⟨ascii 'C', List.replicate 32 0⟩ = some r ∧
        r.1.enqueued.map (fun e => e.msg.symbol.bytes) = [List.replicate 16 0] :=
  ⟨⟨_, rfl, by decide⟩, _, rfl, by decide⟩

end Gateway
