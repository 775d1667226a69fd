/-
**The text protocol from the client to the request.**

The test client writes an order as `u=..|s=..|p=..|q=..|d=..|t=..`.  This module shows that the
gateway reads back what the client wrote.  It also goes one level below the parser of
`AspiraBroker/GatewayParse.lean`, to the pointers of the source: there the scanning functions
`memchr` and `memcpy` read single bytes of the payload, and a read behind its last byte is an error.
On every payload whatever, that parser makes no such read and computes the same request.

Main definitions:

* `Gateway.memchr`, `Gateway.memcpy`, `Gateway.textLoopAt`, `Gateway.gwParseOrderTextAt` — the
  parser on pointers, which fails when it reads outside the payload;
* `Gateway.ClientOrder`, `Gateway.ClientOrder.orderText` — an order, and the payload that the client
  builds.

Main results:

* `Gateway.gwParseOrderTextAt_eq` — **the parser reads no byte outside the payload**;
* `Gateway.text_round_trip` — **what the client wrote is read back**.
-/

import AspiraBroker.GatewayNumerals

set_option relaxedAutoImplicit false
set_option autoImplicit false

namespace Gateway

open Fields

/-! ### The parser on pointers -/

section Pointers

variable (payload : List UInt8)

/-- `while (p < end && (*p == '|' || *p == ' ')) p++`, with `n` bytes from `p` to the end. -/
def skipAt : ℕ → ℕ → Option ℕ
  | 0, p => some p
  | n + 1, p =>
      payload[p]?.bind fun b =>
        if b = ascii '|' || b = ascii ' ' then skipAt n (p + 1) else some p

/-- `memchr(p, c, n)`: where the first byte `c` is among `n` bytes, if there is one. -/
def memchr (c : UInt8) : ℕ → ℕ → Option (Option ℕ)
  | 0, _ => some none
  | n + 1, p => payload[p]?.bind fun b => if b = c then some (some p) else memchr c n (p + 1)

/-- The bytes that `memcpy` reads: `n` of them from `p` on. -/
def memcpy : ℕ → ℕ → Option (List UInt8)
  | 0, _ => some []
  | n + 1, p => payload[p]?.bind fun b => (memcpy n (p + 1)).map (b :: ·)

variable (strtod : List UInt8 → Int64)

/-- The branches on the key of a field whose key starts at `p`, whose `=` is at `eq` and whose
value ends at `ve`.  The key is looked at only if it has one byte. -/
def applyFieldAt (p eq ve : ℕ) (req : OrderRequest) : Option OrderRequest :=
  let vs := eq + 1
  let vl := ve - vs
  (memcpy payload (min vl 31) vs).bind fun vb =>
    if eq - p = 1 then
      payload[p]?.bind fun k =>
        if k = ascii 's' then
          (memcpy payload (min vl 15) vs).map fun symbol => applyField strtod [k] symbol req
        else some (applyField strtod [k] vb req)
    else some req

/-- The loop of `gw_parse_order_text` from the pointer `p` on, for at most `fuel` rounds. -/
def textLoopAt : ℕ → ℕ → OrderRequest → Option OrderRequest
  | 0, _, req => some req
  | fuel + 1, p, req =>
      (skipAt payload (payload.length - p) p).bind fun p =>
        if payload.length ≤ p then some req
        else
          (memchr payload (ascii '=') (payload.length - p) p).bind fun eq? =>
            match eq? with
            | none => some req
            | some eq =>
                (memchr payload (ascii '|') (payload.length - (eq + 1)) (eq + 1)).bind fun pipe? =>
                  let ve := pipe?.getD payload.length
                  (applyFieldAt payload strtod p eq ve req).bind fun req => textLoopAt fuel ve req

/-- `gw_parse_order_text` on pointers: nothing if it reads outside the payload. -/
def gwParseOrderTextAt (now : UInt64) : Option (Option OrderRequest) :=
  (textLoopAt payload strtod payload.length 0 (.blank now)).map fun req =>
    if req.symbol.bytes.headD 0 = 0 then none else some req

end Pointers

/-! ### No read outside the payload -/

section Bounds

variable {payload : List UInt8} {p : ℕ}

theorem getElem?_of_drop {b : UInt8} {rest : List UInt8} (h : payload.drop p = b :: rest) :
    payload[p]? = some b := by
  rw [← List.head?_drop, h, List.head?_cons]

theorem drop_succ_of_drop {b : UInt8} {rest : List UInt8} (h : payload.drop p = b :: rest) :
    payload.drop (p + 1) = rest := by
  rw [← List.drop_drop, h, List.drop_one, List.tail_cons]

theorem length_of_drop {rest : List UInt8} (h : payload.drop p = rest) :
    payload.length - p = rest.length := by
  rw [← h, List.length_drop]

/-- Skipping stops at what is left behind the separators. -/
theorem skipAt_eq {rest : List UInt8} (hp : p ≤ payload.length) (h : payload.drop p = rest) :
    ∃ p', skipAt payload rest.length p = some p' ∧ p' ≤ payload.length ∧
      payload.drop p' = skipSeparators rest := by
  induction rest generalizing p with
  | nil => exact ⟨p, rfl, hp, h⟩
  | cons b rest ih =>
      have hlen := length_of_drop h
      rw [List.length_cons] at hlen
      by_cases hb : (b = ascii '|' || b = ascii ' ') = true
      · obtain ⟨p', hskip, hp', hdrop⟩ := ih (by omega) (drop_succ_of_drop h)
        refine ⟨p', ?_, hp', ?_⟩
        · simp only [skipAt, List.length_cons, getElem?_of_drop h, Option.bind_some, hb, if_true]
          exact hskip
        · rw [hdrop]
          exact (List.dropWhile_cons_of_pos (p := fun b => b = ascii '|' || b = ascii ' ') hb).symm
      · refine ⟨p, ?_, hp, ?_⟩
        · simp only [skipAt, List.length_cons, getElem?_of_drop h, Option.bind_some, hb, if_false,
            Bool.false_eq_true]
        · rw [h]
          exact (List.dropWhile_cons_of_neg (p := fun b => b = ascii '|' || b = ascii ' ') hb).symm

/-- The search finds the end of the bytes before the one looked for. -/
theorem memchr_eq {c : UInt8} {rest : List UInt8} (h : payload.drop p = rest) :
    memchr payload c rest.length p =
      some (if c ∈ rest then some (p + (rest.takeWhile (· ≠ c)).length) else none) := by
  induction rest generalizing p with
  | nil => rfl
  | cons b rest ih =>
      simp only [memchr, List.length_cons, getElem?_of_drop h, Option.bind_some]
      by_cases hb : b = c
      · simp [hb]
      · rw [if_neg hb, ih (drop_succ_of_drop h)]
        have hmem : c ∈ b :: rest ↔ c ∈ rest := by
          rw [List.mem_cons, or_iff_right (Ne.symm hb)]
        by_cases hc : c ∈ rest
        · rw [if_pos hc, if_pos (hmem.2 hc), List.takeWhile_cons_of_pos (by simpa using hb),
            List.length_cons]
          congr 2
          omega
        · rw [if_neg hc, if_neg (mt hmem.1 hc)]

/-- A copy within the payload reads what is there. -/
theorem memcpy_eq {n : ℕ} {rest : List UInt8} (h : payload.drop p = rest) (hn : n ≤ rest.length) :
    memcpy payload n p = some (rest.take n) := by
  induction n generalizing p rest with
  | zero => simp [memcpy]
  | succ n ih =>
      cases rest with
      | nil => exact absurd hn (by simp)
      | cons b rest =>
          simp only [memcpy, getElem?_of_drop h, Option.bind_some,
            ih (drop_succ_of_drop h) (by simpa using hn), Option.map_some, List.take_succ_cons]

variable (strtod : List UInt8 → Int64)

/-- Only the first thirty-one bytes of a value matter for the keys other than `s`. -/
theorem applyField_take_of_ne {key : List UInt8} (hkey : key ≠ [ascii 's']) (value : List UInt8)
    (req : OrderRequest) : applyField strtod key (value.take 31) req =
      applyField strtod key value req := by
  simp only [applyField, if_neg hkey, List.take_take, min_self]

/-- Only the first fifteen for the key `s`. -/
theorem applyField_take_symbol (value : List UInt8) (req : OrderRequest) :
    applyField strtod [ascii 's'] (value.take 15) req =
      applyField strtod [ascii 's'] value req := by
  have hstore : req.symbol.store (value.take 15) = req.symbol.store value := by
    simp only [Symbol.store, List.take_take, min_self]
  change { req with symbol := req.symbol.store (value.take 15) } =
    { req with symbol := req.symbol.store value }
  rw [hstore]

/-- A key that has not one byte is ignored. -/
theorem applyField_of_length_ne {key : List UInt8} (hkey : key.length ≠ 1) (value : List UInt8)
    (req : OrderRequest) : applyField strtod key value req = req := by
  have hne : ∀ c, key ≠ [c] := by
    rintro c rfl
    exact hkey rfl
  simp only [applyField, hne, if_false]

theorem drop_length_takeWhile (f : UInt8 → Bool) (q : List UInt8) :
    q.drop (q.takeWhile f).length = q.dropWhile f := by
  have hsplit : q.takeWhile f ++ q.dropWhile f = q := List.takeWhile_append_dropWhile
  calc q.drop (q.takeWhile f).length
      = (q.takeWhile f ++ q.dropWhile f).drop (q.takeWhile f).length := by rw [hsplit]
    _ = q.dropWhile f := List.drop_left

theorem take_length_takeWhile (f : UInt8 → Bool) (q : List UInt8) :
    q.take (q.takeWhile f).length = q.takeWhile f := by
  have hsplit : q.takeWhile f ++ q.dropWhile f = q := List.takeWhile_append_dropWhile
  calc q.take (q.takeWhile f).length
      = (q.takeWhile f ++ q.dropWhile f).take (q.takeWhile f).length := by rw [hsplit]
    _ = q.takeWhile f := List.take_left

/-- What follows the first `=` starts behind the key. -/
theorem drop_key_succ (q : List UInt8) : q.drop ((fieldKey q).length + 1) = afterKey q := by
  rw [← List.drop_drop, List.drop_one, afterKey, fieldKey, drop_length_takeWhile]

theorem length_fieldKey_lt {q : List UInt8} (heq : ascii '=' ∈ q) :
    (fieldKey q).length < q.length := by
  have hprefix : fieldKey q <+: q := List.takeWhile_prefix _
  refine Nat.lt_of_le_of_ne hprefix.length_le fun hlen => ?_
  have hself : fieldKey q = q := hprefix.eq_of_length hlen
  have := List.takeWhile_eq_self_iff.1 hself _ heq
  simp at this

/-- The branches on the key read within the payload. -/
theorem applyFieldAt_eq {q : List UInt8} (h : payload.drop p = q) (req : OrderRequest) :
    applyFieldAt payload strtod p (p + (fieldKey q).length)
        (p + (fieldKey q).length + 1 + (fieldValue q).length) req =
      some (applyField strtod (fieldKey q) (fieldValue q) req) := by
  have hvs : payload.drop (p + (fieldKey q).length + 1) = afterKey q := by
    rw [Nat.add_assoc, ← List.drop_drop, h, drop_key_succ]
  have hle : (fieldValue q).length ≤ (afterKey q).length := (List.takeWhile_sublist _).length_le
  -- a copy of at most `n` bytes of the value
  have hcopy : ∀ n, memcpy payload (min (fieldValue q).length n) (p + (fieldKey q).length + 1) =
      some ((fieldValue q).take n) := by
    intro n
    rw [memcpy_eq hvs ((Nat.min_le_left _ _).trans hle), Nat.min_comm, ← List.take_take, fieldValue,
      take_length_takeWhile]
  simp only [applyFieldAt, Nat.add_sub_cancel_left, hcopy, Option.bind_some]
  by_cases hone : (fieldKey q).length = 1
  · obtain ⟨k, hk⟩ := List.length_eq_one_iff.1 hone
    have hget : payload[p]? = some k := by
      rw [← List.head?_drop, h]
      have hhead : (fieldKey q).head? = some k := by rw [hk]; rfl
      cases q with
      | nil => cases hhead
      | cons b q =>
          rw [fieldKey, List.takeWhile_cons] at hhead
          split at hhead
          · exact hhead
          · cases hhead
    rw [if_pos hone, hget, Option.bind_some, hk]
    by_cases hs : k = ascii 's'
    · rw [if_pos hs, hs, Option.map_some, applyField_take_symbol]
    · rw [if_neg hs, applyField_take_of_ne]
      simpa using hs
  · rw [if_neg hone, applyField_of_length_ne strtod hone]

/-- The value ends at the `|` that is found, or at the end of the payload. -/
theorem memchr_pipe {vs : ℕ} {q : List UInt8} (hle : vs ≤ payload.length)
    (h : payload.drop vs = afterKey q) :
    ∃ pipe?, memchr payload (ascii '|') (payload.drop vs).length vs = some pipe? ∧
      pipe?.getD payload.length = vs + (fieldValue q).length := by
  rw [h, memchr_eq h]
  refine ⟨_, rfl, ?_⟩
  by_cases hpipe : ascii '|' ∈ afterKey q
  · rw [if_pos hpipe]
    rfl
  · have hall : fieldValue q = afterKey q :=
      takeWhile_sep (M := textMarks) hpipe
    have hlen := length_of_drop h
    rw [if_neg hpipe, hall, Option.getD_none]
    omega

/-- The loop on pointers reads within the payload, and computes what the loop on bytes does. -/
theorem textLoopAt_eq (fuel : ℕ) (hp : p ≤ payload.length) (req : OrderRequest) :
    textLoopAt payload strtod fuel p req =
      some (textLoop strtod fuel (payload.drop p) req) := by
  induction fuel generalizing p req with
  | zero => rfl
  | succ fuel ih =>
      obtain ⟨p', hskip, hp', hdrop⟩ := skipAt_eq hp rfl
      simp only [textLoopAt, textLoop, ← List.length_drop, hskip, Option.bind_some]
      generalize skipSeparators (payload.drop p) = q at hdrop
      have hlen := length_of_drop hdrop
      by_cases hend : payload.length ≤ p'
      · obtain rfl : q = [] := List.eq_nil_of_length_eq_zero (by omega)
        rw [if_pos hend, if_neg List.not_mem_nil]
      · rw [if_neg hend, hdrop, memchr_eq hdrop, Option.bind_some]
        by_cases heq : ascii '=' ∈ q
        · have hvs : payload.drop (p' + (fieldKey q).length + 1) = afterKey q := by
            rw [Nat.add_assoc, ← List.drop_drop, hdrop, drop_key_succ]
          have hkey := length_fieldKey_lt heq
          obtain ⟨pipe?, hpipe, hve⟩ := memchr_pipe (by omega) hvs
          rw [if_pos heq, if_pos heq]
          change ((memchr payload (ascii '|') (payload.drop (p' + (fieldKey q).length + 1)).length
            (p' + (fieldKey q).length + 1)).bind _) = _
          rw [hpipe, Option.bind_some]
          simp only [hve]
          have hvalue : (fieldValue q).length ≤ (afterKey q).length :=
            (List.takeWhile_sublist _).length_le
          have hlen' := length_of_drop hvs
          change ((applyFieldAt payload strtod p' (p' + (fieldKey q).length) _ req).bind _) = _
          rw [applyFieldAt_eq strtod hdrop, Option.bind_some, ih (by omega),
            ← List.drop_drop, hvs, fieldValue, drop_length_takeWhile]
          rfl
        · rw [if_neg heq, if_neg heq]

end Bounds

/-- **The parser reads no byte outside the payload**, whatever its bytes are. -/
theorem gwParseOrderTextAt_eq (strtod : List UInt8 → Int64) (payload : List UInt8) (now : UInt64) :
    gwParseOrderTextAt payload strtod now = some (gwParseOrderText strtod payload now) := by
  rw [gwParseOrderTextAt, textLoopAt_eq strtod _ (Nat.zero_le _), List.drop_zero, Option.map_some]
  rfl

/-! ### The payload of the client -/

/-- An order of the test client: a symbol of one to fifteen bytes, and the text of the price. -/
structure ClientOrder where
  userId : UInt64
  symbol : List UInt8
  price : List UInt8
  quantity : UInt32
  side : Side
  type : OrderType
  symbol_ne : symbol ≠ []
  symbol_le : symbol.length ≤ 15
  symbol_nul : 0 ∉ symbol
  symbol_pipe : ascii '|' ∉ symbol
  price_pipe : ascii '|' ∉ price

/-- The letter of a side. -/
def Side.letter : Side → UInt8
  | .buy => ascii 'B'
  | .sell => ascii 'S'

/-- The letter of a type. -/
def OrderType.letter : OrderType → UInt8
  | .limit => ascii 'L'
  | .market => ascii 'M'
  | .ioc => ascii 'I'
  | .fok => ascii 'F'

/-- A key and a value with the `=` between them. -/
def keyValue (key : Char) (value : List UInt8) : List UInt8 := ascii key :: ascii '=' :: value

namespace ClientOrder

variable (o : ClientOrder)

/-- The fields, in the order in which the client writes them. -/
def fields : List (Char × List UInt8) :=
  [('u', decimal o.userId.toNat), ('s', o.symbol), ('p', o.price),
    ('q', decimal o.quantity.toNat), ('d', [o.side.letter]), ('t', [o.type.letter])]

/-- The payload that `build_order_msg` prints. -/
def orderText : List UInt8 :=
  [ascii '|'].intercalate (o.fields.map fun f => keyValue f.1 f.2)

end ClientOrder

/-! ### Reading it back -/

theorem pipe_not_mem_digits {bs : List UInt8} (h : Digits bs) : ascii '|' ∉ bs := by
  intro hmem
  have := h _ hmem
  revert this
  decide

/-- The field in a piece that starts with a key of one letter. -/
theorem pieceField_keyValue {key : Char} (hblank : ascii key ≠ ascii ' ')
    (heq : ascii key ≠ ascii '=') (value : List UInt8) :
    pieceField textMarks (keyValue key value) = some ([ascii key], value) := by
  have htrim : trim textMarks (keyValue key value) = keyValue key value :=
    List.dropWhile_cons_of_neg (fun h => hblank (of_decide_eq_true h))
  rw [pieceField, htrim, if_pos (by simp [keyValue, textMarks])]
  have hkey : Fields.key textMarks (keyValue key value) = [ascii key] := by
    simp [Fields.key, keyValue, textMarks, heq]
  have hafter : Fields.afterKey textMarks (keyValue key value) = value := by
    simp [Fields.afterKey, keyValue, textMarks, heq]
  rw [hkey, hafter]

/-- The keys of the client are none of the marks. -/
theorem clientKeys_ne_marks : ∀ key ∈ ['u', 's', 'p', 'q', 'd', 't'],
    ascii key ≠ ascii ' ' ∧ ascii key ≠ ascii '=' ∧ ascii '|' ≠ ascii key := by
  have hall : ['u', 's', 'p', 'q', 'd', 't'].all (fun key => decide
      (ascii key ≠ ascii ' ' ∧ ascii key ≠ ascii '=' ∧ ascii '|' ≠ ascii key)) = true := by decide
  simpa only [List.all_eq_true, decide_eq_true_eq] using hall

theorem fields_ne_marks (o : ClientOrder) {f : Char × List UInt8} (hf : f ∈ o.fields) :
    ascii f.1 ≠ ascii ' ' ∧ ascii f.1 ≠ ascii '=' ∧ ascii '|' ≠ ascii f.1 :=
  clientKeys_ne_marks f.1 (List.mem_map_of_mem (f := Prod.fst) hf)

/-- The values of the client have no `|` in them. -/
theorem pipe_not_mem_value (o : ClientOrder) {f : Char × List UInt8} (hf : f ∈ o.fields) :
    ascii '|' ∉ f.2 := by
  simp only [ClientOrder.fields, List.mem_cons, List.not_mem_nil, or_false] at hf
  rcases hf with rfl | rfl | rfl | rfl | rfl | rfl
  · exact pipe_not_mem_digits (digits_decimal _)
  · exact o.symbol_pipe
  · exact o.price_pipe
  · exact pipe_not_mem_digits (digits_decimal _)
  · cases o.side <;> decide
  · cases o.type <;> decide

/-- The parser finds the fields that the client wrote. -/
theorem keptFields_orderText (o : ClientOrder) :
    keptFields o.orderText = o.fields.map fun f => ([ascii f.1], f.2) := by
  have hsplit : o.orderText.splitOn (ascii '|') = o.fields.map fun f => keyValue f.1 f.2 := by
    refine List.splitOn_intercalate _ ?_ (by simp [ClientOrder.fields])
    intro piece hpiece
    obtain ⟨f, hf, rfl⟩ := List.mem_map.1 hpiece
    simp only [keyValue, List.mem_cons, not_or]
    exact ⟨(fields_ne_marks o hf).2.2, pipe_ne_equals, pipe_not_mem_value o hf⟩
  have hmark : ∀ piece ∈ o.fields.map fun f => keyValue f.1 f.2,
      textMarks.eq ∈ piece ∨ trim textMarks piece = [] := by
    intro piece hpiece
    obtain ⟨f, -, rfl⟩ := List.mem_map.1 hpiece
    exact Or.inl (List.mem_cons_of_mem _ List.mem_cons_self)
  rw [keptFields, hsplit, kept_eq_filterMap hmark, List.filterMap_map, ← List.filterMap_eq_map]
  refine List.filterMap_congr fun f hf => ?_
  obtain ⟨hblank, heq, -⟩ := fields_ne_marks o hf
  exact pieceField_keyValue hblank heq f.2

/-- A number that is printed is read back. -/
theorem textNumber_decimal {n : ℕ} (h : n < 2 ^ 64) : (textNumber (decimal n)).toNat = n := by
  have hval := digitsValue_decimal n
  have hlen : (decimal n).length ≤ 19 + 1 := length_decimal_le (by omega)
  rw [(textNumber_eq_iff (digits_decimal n) (by omega)).2 (Or.inl (by omega)), hval]

/-- Six fields, one after the other. -/
theorem gwTextRequest_orderText (strtod : List UInt8 → Int64) (o : ClientOrder) (now : UInt64) :
    gwTextRequest strtod o.orderText now =
      ⟨0, textNumber (decimal o.userId.toNat), Symbol.zero.store o.symbol, strtod (o.price.take 31),
        (textNumber (decimal o.quantity.toNat)).toUInt32, textSide [o.side.letter],
        textType [o.type.letter], now⟩ := by
  rw [gwTextRequest_eq_kept, keptFields_orderText]
  rfl

/-- **What the client wrote is read back**: the parser accepts the payload, reads no byte outside
it, and finds the user, the symbol, the quantity, the side and the type of the order. -/
theorem text_round_trip (strtod : List UInt8 → Int64) (o : ClientOrder) (now : UInt64) :
    ∃ req, gwParseOrderTextAt o.orderText strtod now = some (some req) ∧
      req.userId = o.userId ∧ req.symbol.cString = o.symbol ∧ req.quantity = o.quantity ∧
      req.side = o.side ∧ req.type = o.type := by
  have hsix := gwTextRequest_orderText strtod o now
  refine ⟨gwTextRequest strtod o.orderText now, ?_, ?_, ?_, ?_, ?_, ?_⟩
  · rw [gwParseOrderTextAt_eq, gwParseOrderText_eq, if_neg]
    rw [hsix]
    change ¬ (Symbol.zero.store o.symbol).bytes.headD 0 = 0
    rw [headD_store]
    obtain ⟨b, bs, hsym⟩ := List.exists_cons_of_ne_nil o.symbol_ne
    have hnul := o.symbol_nul
    rw [hsym] at hnul ⊢
    rintro rfl
    exact hnul List.mem_cons_self
  · rw [hsix, ← UInt64.toNat_inj]
    exact textNumber_decimal o.userId.toNat_lt
  · rw [hsix]
    change (Symbol.zero.store o.symbol).cString = o.symbol
    rw [cString_store, textSymbol, List.take_of_length_le o.symbol_le,
      List.takeWhile_eq_self_iff]
    intro b hb
    refine decide_eq_true ?_
    rintro rfl
    exact o.symbol_nul hb
  · rw [hsix, ← UInt32.toNat_inj]
    have hlt := o.quantity.toNat_lt
    change (textNumber (decimal o.quantity.toNat)).toUInt32.toNat = o.quantity.toNat
    rw [UInt64.toNat_toUInt32, textNumber_decimal (by omega), Nat.mod_eq_of_lt hlt]
  · rw [hsix]
    change textSide [o.side.letter] = o.side
    cases o.side <;> decide
  · rw [hsix]
    change textType [o.type.letter] = o.type
    cases o.type <;> decide

end Gateway
