/-
**From the bytes of a client to the orders in the queue.**

Earlier modules say what the gateway does with a byte stream, with a frame, with the payload of an
order, and that other connections do not interfere.  This module puts them together for a client
that connects, authenticates and sends orders, while any other clients do what they like.

What a list of frames asks for is a function of the frames alone (`Gateway.asked`): an `A` frame
with a key authenticates the connection, and from then on orders and cancels are messages.  What the
gateway enqueues for a connection is part of that, in the same order, and all of it if no order is
held back by the rate limit or the idempotency ring and the queue has room.

A client that sends a key and then orders as `build_order_msg` writes them gets exactly these orders
into the queue, however its stream is cut into pieces.  Its frames are short enough for the buffers
on the stack, so it does not depend on `malloc`, which may fail for the frames of other clients.

Main definitions:

* `Gateway.asked` — the messages that a list of frames asks for;
* `Gateway.Frame.bytes`, `Gateway.streamOf` — frames on the wire;
* `Gateway.clientFrames` — a key and orders;
* `Gateway.Conveys` — the message of an order.

Main results:

* `Gateway.messages_rel_asked` — what is enqueued, step by step;
* `Gateway.session_messages` — **the queue gets what the frames ask for**;
* `Gateway.decode_streamOf` — **frames are read back from the wire**;
* `Gateway.affords_of_sent` — a client with short frames is never refused for want of memory;
* `Gateway.client_orders_arrive` — **the orders of a client arrive**.
-/

import AspiraBroker.GatewayIsolation
import AspiraBroker.GatewayRoundTrip

set_option relaxedAutoImplicit false
set_option autoImplicit false

namespace Gateway

open Ring Transition

/-! ### What frames ask for -/

/-- The messages of a request. -/
def Request.wants : Request → List OmsMsg
  | .order req => [.order req]
  | .cancel req => [.cancel req]
  | .noMemory | .skip | .auth => []

/-- The request authenticates the connection. -/
def Request.authenticates : Request → Bool
  | .auth => true
  | .noMemory | .skip | .order _ | .cancel _ => false

/-- The order of a request. -/
def Request.order? : Request → Option OrderRequest
  | .order req => some req
  | .noMemory | .skip | .auth | .cancel _ => none

theorem Request.order?_eq_some {r : Request} {req : OrderRequest} (h : r.order? = some req) :
    r = .order req := by
  cases r with
  | order req' =>
      cases h
      rfl
  | noMemory | skip | auth | cancel => cases h

/-- The messages that a list of frames asks for, on a connection that is authenticated or not. -/
def asked : Bool → List (Frame × FrameEnv) → List OmsMsg
  | _, [] => []
  | authenticated, (f, env) :: rest =>
      (frameRequest env authenticated f).wants ++
        asked (authenticated || (frameRequest env authenticated f).authenticates) rest

section Serving

variable {env : FrameEnv} {g g' : Ctx} {c c' : Conn} {r : Request}

theorem authenticated_gwServe (h : gwServe env g c r = some (g', c')) :
    c'.authenticated = (c.authenticated || r.authenticates) := by
  cases r with
  | noMemory => cases h
  | auth =>
      cases h
      exact (Bool.or_true _).symm
  | skip | cancel req =>
      cases h
      exact (Bool.or_false _).symm
  | order req =>
      obtain ⟨-, rfl⟩ := eq_of_gwServe_order h
      rw [Request.authenticates, Bool.or_false, conn_gwPushOrder]
      have hrate : (c.rateWindow env.now).authenticated = c.authenticated := by
        unfold Conn.rateWindow
        split <;> rfl
      split <;> exact hrate

/-- What is enqueued is part of what was asked for. -/
theorem messages_sublist_wants : (r.messages env g c).Sublist r.wants := by
  cases r with
  | order req | cancel req =>
      simp only [Request.messages, Request.wants]
      split
      · exact .refl _
      · exact List.nil_sublist _
  | noMemory | skip | auth => exact .refl _

theorem messages_eq_wants (hpush : env.pushOk = true)
    (hpasses : ∀ req ∈ r.order?, Passes env g c req) : r.messages env g c = r.wants := by
  cases r with
  | order req => simp [Request.messages, Request.wants, hpush, hpasses req rfl]
  | cancel req => simp [Request.messages, Request.wants, hpush]
  | noMemory | skip | auth => rfl

end Serving

/-! ### What is enqueued for a connection -/

section Enqueued

variable {i : ℕ} {s s' : Sys} {a : Act}

/-- A step that handles no frame of the connection leaves its rights alone. -/
theorem authenticated_of_hidden (hocc : Occupies i s a) (h : step s a = some s')
    (hsee : sends i s a = none) :
    (s'.conns i).authenticated = (s.conns i).authenticated ∧ enqueuesFor i s a = none := by
  have hother : ∀ v ∈ served s a, v.slot ≠ i := by
    intro v hv hi
    simp [sends, Option.mem_def.1 hv, hi] at hsee
  have hapart : Apart [] (some i) s a := by
    intro v hv
    rw [if_neg fun hi => hother v hv (Option.some.inj hi).symm]
    exact fun _ _ => List.not_mem_nil
  obtain ⟨hrights, hemit⟩ :=
    alike_of_hidden (t := s) (j := i) ⟨.refl _, fun _ _ => rfl⟩ ⟨hapart, hocc⟩ h hsee
  exact ⟨hrights.rights.authenticated.symm, hemit⟩

/-- A step that handles a frame of the connection: what the frame asks for does not depend on the
buffer, and what is enqueued are messages of its request. -/
theorem authenticated_of_seen {k : Frame × FrameEnv} (hself : k.1.SelfContained)
    (h : step s a = some s') (hsee : sends i s a = some k) :
    (s'.conns i).authenticated = ((s.conns i).authenticated ||
      (frameRequest k.2 (s.conns i).authenticated k.1).authenticates) ∧
    ∃ env, served s a = some ⟨i, env, k.1⟩ ∧
      Service.request ⟨i, env, k.1⟩ s = frameRequest k.2 (s.conns i).authenticated k.1 ∧
      enqueuesFor i s a =
        some ((Service.request ⟨i, env, k.1⟩ s).messages env s.ctx (s.conns i)) := by
  obtain ⟨env, hserved, henv⟩ := served_of_sends hsee
  have hcleared : env.cleared = k.2.cleared := by
    rw [← henv]
    rfl
  have hrequest : Service.request ⟨i, env, k.1⟩ s =
      frameRequest k.2 (s.conns i).authenticated k.1 := frameRequest_congr hself hcleared _
  have hemit : enqueuesFor i s a = some (enqueues s a) := by simp [enqueuesFor, hserved]
  by_cases hmemory : Service.request ⟨i, env, k.1⟩ s = .noMemory
  · obtain ⟨-, hrights, hnil⟩ := step_of_noMemory h hserved hmemory
    refine ⟨?_, env, hserved, hrequest, ?_⟩
    · rw [← hrequest, hmemory, Request.authenticates, Bool.or_false]
      exact hrights.authenticated
    · rw [hemit, hnil, hmemory, Request.messages]
  · obtain ⟨c, hout, hrights⟩ := step_of_served h hserved hmemory
    refine ⟨?_, env, hserved, hrequest, ?_⟩
    · rw [hrights.authenticated, ← hrequest]
      change c.authenticated = _
      exact authenticated_gwServe hout
    · rw [hemit, enqueues_eq h hout]

/-- **What is enqueued, step by step**: a relation between the messages that each frame of the
connection leads to and those it asks for holds for the whole run. -/
theorem messages_rel_asked {R : List OmsMsg → List OmsMsg → Prop} (hnil : R [] [])
    (happend : ∀ {xs xs' ys ys'}, R xs xs' → R ys ys' → R (xs ++ ys) (xs' ++ ys'))
    {G : Sys → Act → Prop} (hocc : ∀ s a, G s a → Occupies i s a)
    {P : Frame → Prop} (hself : ∀ f, P f → f.SelfContained)
    (hserve : ∀ s a env f, G s a → P f → served s a = some ⟨i, env, f⟩ →
      R ((Service.request ⟨i, env, f⟩ s).messages env s.ctx (s.conns i))
        (Service.request ⟨i, env, f⟩ s).wants)
    {as : List Act} (hguard : Along step G s as)
    (hP : ∀ k ∈ observed step (sends i) s as, P k.1) :
    R (observed step (enqueuesFor i) s as).flatten
      (asked (s.conns i).authenticated (observed step (sends i) s as)) := by
  induction as generalizing s with
  | nil => exact hnil
  | cons a as ih =>
      cases hstep : step s a with
      | none =>
          rw [observed_of_disabled hstep, observed_of_disabled hstep]
          exact hnil
      | some s' =>
          have hrest := hguard.2 s' hstep
          cases hsee : sends i s a with
          | none =>
              obtain ⟨hauth, hemit⟩ := authenticated_of_hidden (hocc s a hguard.1) hstep hsee
              rw [observed_of_hidden hstep hsee] at hP ⊢
              rw [observed_of_hidden hstep hemit, ← hauth]
              exact ih hrest hP
          | some k =>
              rw [observed_of_seen hstep hsee] at hP ⊢
              have hk := hP k List.mem_cons_self
              obtain ⟨hauth, env, hserved, hrequest, hemit⟩ :=
                authenticated_of_seen (hself _ hk) hstep hsee
              rw [observed_of_seen hstep hemit, List.flatten_cons, asked, ← hauth]
              refine happend ?_ (ih hrest fun j hj => hP j (List.mem_cons_of_mem _ hj))
              rw [← hrequest]
              exact hserve s a env k.1 hguard.1 hk hserved

end Enqueued

section Messages

variable {maxConns : ℕ} (x : Session maxConns)

theorem authenticated_start : (x.start.conns x.slot).authenticated = false := by
  rw [x.accepted]
  rfl

theorem messages_sublist_asked (hself : ∀ k ∈ x.frames, k.1.SelfContained) :
    x.messages.Sublist (asked false x.frames) := by
  rw [← authenticated_start x]
  exact messages_rel_asked (List.nil_sublist _) List.Sublist.append (fun _ _ h => h)
    (fun _ h => h) (fun _ _ _ _ _ _ _ => messages_sublist_wants) x.occupied hself

theorem messages_eq_asked {P : Frame → Prop} (hself : ∀ f, P f → f.SelfContained)
    (hP : ∀ k ∈ x.frames, P k.1) {G : Sys → Act → Prop}
    (hadmits : ∀ s a env f, G s a → P f → served s a = some ⟨x.slot, env, f⟩ →
      env.pushOk = true ∧ ∀ req ∈ (Service.request ⟨x.slot, env, f⟩ s).order?,
        Passes env s.ctx (s.conns x.slot) req)
    (hG : Along step G x.start x.during) : x.messages = asked false x.frames := by
  rw [← authenticated_start x]
  refine messages_rel_asked (R := Eq) rfl (fun h h' => by rw [h, h']) (fun _ _ h => h.1) hself ?_
    (along_and_iff.2 ⟨x.occupied, hG⟩) hP
  intro s a env f hg hf hserved
  obtain ⟨hpush, hpasses⟩ := hadmits s a env f hg.2 hf hserved
  exact messages_eq_wants hpush hpasses

end Messages

/-- Nothing holds back what the connection in slot `i` asks for: its orders pass, and the queue has
room. -/
def Admits (i : ℕ) (s : Sys) (a : Act) : Prop :=
  ∀ v ∈ served s a, v.slot = i → v.env.pushOk = true ∧
    ∀ req ∈ (v.request s).order?, Passes v.env s.ctx (s.conns v.slot) req

instance (i : ℕ) (s : Sys) (a : Act) : Decidable (Admits i s a) :=
  inferInstanceAs (Decidable (∀ v ∈ served s a, v.slot = i → _ ∧ ∀ req ∈ _, _))

/-- `htonl`: four bytes, the most significant one first. -/
def htonl (n : ℕ) : List UInt8 :=
  [.ofNat (n / 16777216), .ofNat (n / 65536), .ofNat (n / 256), .ofNat n]

/-- A frame on the wire: its length with the header, its type, its payload. -/
def Frame.bytes (f : Frame) : List UInt8 := htonl f.size ++ f.msgType :: f.payload

/-- Frames one after the other. -/
def streamOf (fs : List Frame) : List UInt8 := fs.flatMap Frame.bytes

theorem beNat_htonl {n : ℕ} (h : n < 2 ^ 32) : beNat (htonl n) = n := by
  simp only [beNat, htonl, List.foldl_cons, List.foldl_nil, UInt8.toNat_ofNat']
  omega

section Wire

variable {f : Frame}

theorem length_bytes : f.bytes.length = f.size := by
  simp only [Frame.bytes, htonl, Frame.size, List.length_append, List.length_cons,
    List.length_nil]
  omega

theorem lengthField_bytes (h : f.size ≤ 65536) : lengthField f.bytes = f.size := by
  have hheader : (htonl f.size).length = 4 := rfl
  rw [lengthField, Frame.bytes, List.take_left' hheader, beNat_htonl (by omega)]

/-- A frame is read back, whatever follows it. -/
theorem decode_bytes_append (h : f.size ≤ 65536) (more : List UInt8) :
    decode (f.bytes ++ more) = f :: decode more := by
  have hfield := lengthField_bytes h
  have hlen := length_bytes (f := f)
  have hwhole : Whole f.bytes := ⟨by rw [hfield]; exact Nat.le_add_right 5 _, by omega, by omega⟩
  have hfirst : firstFrame f.bytes = f := by
    rw [firstFrame, hfield, List.take_of_length_le (by omega)]
    rfl
  rw [decode_append_of_whole hwhole, hfirst, hfield, List.drop_of_length_le (by omega),
    List.nil_append]

/-- **Frames are read back from the wire.** -/
theorem decode_streamOf {fs : List Frame} (h : ∀ f ∈ fs, f.size ≤ 65536) :
    decode (streamOf fs) = fs := by
  induction fs with
  | nil => exact decode_of_not_whole not_whole_nil
  | cons f fs ih =>
      rw [streamOf, List.flatMap_cons, decode_bytes_append (h f List.mem_cons_self)]
      exact congrArg (f :: ·) (ih fun g hg => h g (List.mem_cons_of_mem f hg))

end Wire

/-! ### A client -/

/-- The frame that authenticates a client. -/
def keyFrame (key : List UInt8) : Frame := ⟨ascii 'A', key⟩

/-- The frame that `build_order_msg` writes, for a payload that fits into its buffer. -/
def orderFrame (o : ClientOrder) : Frame := ⟨ascii 'O', o.orderText⟩

/-- What a client sends: its key, then its orders. -/
def clientFrames (key : List UInt8) (orders : List ClientOrder) : List Frame :=
  keyFrame key :: orders.map orderFrame

/-- The request of an order. -/
def ClientOrder.request (o : ClientOrder) (strtod : List UInt8 → Int64) (stamp : UInt64) :
    OrderRequest :=
  ⟨0, o.userId, Symbol.zero.store o.symbol, strtod (o.price.take 31), o.quantity, o.side, o.type,
    stamp⟩

/-- The message is that of the order, with some time stamp. -/
def Conveys (strtod : List UInt8 → Int64) (o : ClientOrder) (msg : OmsMsg) : Prop :=
  ∃ stamp, msg = .order (o.request strtod stamp)

section Client

variable {key : List UInt8} {o : ClientOrder}

theorem length_apiKey (hkey : key ∈ gApiKeys) : key.length = btApiKeyLen := by
  simp only [gApiKeys, List.mem_cons, List.not_mem_nil, or_false] at hkey
  rcases hkey with rfl | rfl <;> rfl

theorem frameRequest_keyFrame (hkey : key ∈ gApiKeys) (env : FrameEnv) (authenticated : Bool) :
    frameRequest env authenticated (keyFrame key) = .auth := by
  have hlen := length_apiKey hkey
  have hvalid : gwValidateApiKey (fill env.stale 0 key) = true := by
    rw [gwValidateApiKey_iff, slice_fill (by omega), ← hlen, List.take_length]
    exact hkey
  have hsmall : ¬(256 < key.length ∧ env.mallocOk = false) := by
    rw [hlen, btApiKeyLen]
    omega
  simp only [frameRequest, keyFrame, if_true, if_neg hsmall, hvalid]

theorem gwParseOrderText_orderText (strtod : List UInt8 → Int64) (o : ClientOrder)
    (now : UInt64) : gwParseOrderText strtod o.orderText now = some (o.request strtod now) := by
  have huser : textNumber (decimal o.userId.toNat) = o.userId := by
    rw [← UInt64.toNat_inj]
    exact textNumber_decimal o.userId.toNat_lt
  have hquantity : (textNumber (decimal o.quantity.toNat)).toUInt32 = o.quantity := by
    have hlt := o.quantity.toNat_lt
    rw [← UInt32.toNat_inj, UInt64.toNat_toUInt32, textNumber_decimal (by omega),
      Nat.mod_eq_of_lt hlt]
  have hside : textSide [o.side.letter] = o.side := by cases o.side <;> decide
  have htype : textType [o.type.letter] = o.type := by cases o.type <;> decide
  have hsymbol : (Symbol.zero.store o.symbol).bytes.headD 0 ≠ 0 := by
    rw [headD_store]
    obtain ⟨b, bs, hsym⟩ := List.exists_cons_of_ne_nil o.symbol_ne
    have hnul := o.symbol_nul
    rw [hsym] at hnul ⊢
    rintro rfl
    exact hnul List.mem_cons_self
  rw [gwParseOrderText_eq, gwTextRequest_orderText, huser, hquantity, hside, htype, if_neg hsymbol]
  rfl

theorem frameRequest_orderFrame (hshort : o.orderText.length < 256) (env : FrameEnv) :
    frameRequest env true (orderFrame o) = .order (o.request env.strtod env.stamp) := by
  have hsmall : ¬(8192 < o.orderText.length ∧ env.mallocOk = false) := by omega
  have hA : ¬ ascii 'O' = ascii 'A' := by decide
  have hB : ¬ ascii 'O' = ascii 'B' := by decide
  simp only [frameRequest, orderFrame, if_neg hA, if_neg hB, if_neg hsmall, true_or, if_true,
    Bool.true_eq_false, if_false, gwParseOrderText_orderText]

/-- The frames of a client are not read beyond their end. -/
theorem selfContained_of_clientFrame {orders : List ClientOrder} {f : Frame} (hkey : key ∈ gApiKeys)
    (hf : f ∈ clientFrames key orders) : f.SelfContained := by
  rcases List.mem_cons.1 hf with rfl | hf
  · have hAB : ascii 'A' ≠ ascii 'B' := by decide
    have hlen := length_apiKey hkey
    exact ⟨fun _ hlt => absurd hlt (by simp [keyFrame, hlen]), fun hB => absurd hB hAB⟩
  · have hOA : ascii 'O' ≠ ascii 'A' := by decide
    have hOB : ascii 'O' ≠ ascii 'B' := by decide
    obtain ⟨o, -, rfl⟩ := List.mem_map.1 hf
    exact ⟨fun hA => absurd hA hOA, fun hB => absurd hB hOB⟩

/-- The frames of a client are short. -/
theorem length_payload_of_clientFrame {orders : List ClientOrder} {f : Frame}
    (hkey : key ∈ gApiKeys) (hshort : ∀ o ∈ orders, o.orderText.length < 256)
    (hf : f ∈ clientFrames key orders) : f.payload.length ≤ 256 := by
  rcases List.mem_cons.1 hf with rfl | hf
  · exact (length_apiKey hkey).le.trans (by decide)
  · obtain ⟨o, ho, rfl⟩ := List.mem_map.1 hf
    exact (hshort o ho).le

/-- The orders of a client carry no id: they pass if the connection is within its rate. -/
theorem passes_of_clientFrame {orders : List ClientOrder} {f : Frame} (hkey : key ∈ gApiKeys)
    (hshort : ∀ o ∈ orders, o.orderText.length < 256) (hf : f ∈ clientFrames key orders)
    {env : FrameEnv} {g : Ctx} {c : Conn} {authenticated : Bool} {req : OrderRequest}
    (hreq : req ∈ (frameRequest env authenticated f).order?) (hrate : WithinRate env c) :
    Passes env g c req := by
  replace hreq := Request.order?_eq_some hreq
  rcases List.mem_cons.1 hf with rfl | hf
  · rw [frameRequest_keyFrame hkey] at hreq
    cases hreq
  · obtain ⟨o, ho, rfl⟩ := List.mem_map.1 hf
    obtain rfl := authenticated_of_frameRequest hreq (by simp) (by simp) (by simp)
    rw [frameRequest_orderFrame (hshort o ho)] at hreq
    cases hreq
    exact ⟨hrate, fun hid => absurd rfl hid⟩

/-- On an authenticated connection every order is a message. -/
theorem asked_orders {strtod : List UInt8 → Int64} {ks : List (Frame × FrameEnv)}
    {orders : List ClientOrder} (hshort : ∀ o ∈ orders, o.orderText.length < 256)
    (hstrtod : ∀ k ∈ ks, k.2.strtod = strtod) (hks : ks.map Prod.fst <+: orders.map orderFrame) :
    List.Forall₂ (Conveys strtod) (orders.take ks.length) (asked true ks) := by
  induction ks generalizing orders with
  | nil => exact .nil
  | cons k ks ih =>
      cases orders with
      | nil => simp at hks
      | cons o orders =>
          obtain ⟨f, env⟩ := k
          rw [List.map_cons, List.map_cons, List.cons_prefix_cons] at hks
          obtain ⟨rfl, hks⟩ := hks
          have henv : env.strtod = strtod := hstrtod _ List.mem_cons_self
          rw [asked, frameRequest_orderFrame (hshort o List.mem_cons_self), henv]
          exact .cons ⟨_, rfl⟩ (ih (fun p hp => hshort p (List.mem_cons_of_mem o hp))
            (fun j hj => hstrtod j (List.mem_cons_of_mem _ hj)) hks)

/-- A connection that starts with the key asks for the orders. -/
theorem asked_client {strtod : List UInt8 → Int64} {ks : List (Frame × FrameEnv)}
    {orders : List ClientOrder} (hkey : key ∈ gApiKeys)
    (hshort : ∀ o ∈ orders, o.orderText.length < 256)
    (hstrtod : ∀ k ∈ ks, k.2.strtod = strtod)
    (hks : ks.map Prod.fst <+: clientFrames key orders) :
    List.Forall₂ (Conveys strtod) (orders.take (ks.length - 1)) (asked false ks) := by
  cases ks with
  | nil => exact .nil
  | cons k ks =>
      obtain ⟨f, env⟩ := k
      rw [List.map_cons, clientFrames, List.cons_prefix_cons] at hks
      obtain ⟨rfl, hks⟩ := hks
      rw [asked, frameRequest_keyFrame hkey]
      exact asked_orders hshort (fun j hj => hstrtod j (List.mem_cons_of_mem _ hj)) hks

end Client

/-- A part of the right side of a correspondence corresponds to a part of the left side. -/
theorem exists_sublist_of_forall₂ {α β : Type*} {R : α → β → Prop} {xs : List α} {ys zs : List β}
    (h : List.Forall₂ R xs ys) (hsub : zs.Sublist ys) :
    ∃ ws, ws.Sublist xs ∧ List.Forall₂ R ws zs := by
  induction hsub generalizing xs with
  | slnil => exact ⟨[], List.nil_sublist _, .nil⟩
  | cons y _ ih =>
      obtain ⟨x, xs', -, hrest, rfl⟩ := List.forall₂_cons_right_iff.1 h
      obtain ⟨ws, hws, hR⟩ := ih hrest
      exact ⟨ws, hws.cons x, hR⟩
  | cons_cons y _ ih =>
      obtain ⟨x, xs', hx, hrest, rfl⟩ := List.forall₂_cons_right_iff.1 h
      obtain ⟨ws, hws, hR⟩ := ih hrest
      exact ⟨x :: ws, hws.cons_cons x, .cons hx hR⟩

/-! ### The client needs no memory -/

section Memory

variable {i : ℕ} {s t : Sys} {fs : List Frame}

/-- A frame whose payload fits into the stack array of `gw_process_data` is not too long. -/
theorem size_le_of_short {f : Frame} (h : f.payload.length ≤ 256) : f.size ≤ 65536 :=
  (Nat.add_le_add_left h 5).trans (by decide)

/-- A frame at the front of the ring of a connection is one of those that its client sends. -/
theorem front_mem {c : Conn} (hc : Framed c) (hsizes : ∀ f ∈ fs, f.size ≤ 65536)
    (hsent : c.received <+: streamOf fs) (hfront : c.Complete) : c.front ∈ fs := by
  obtain ⟨more, hmore⟩ := hsent
  have hwhole := hc.whole_iff.2 hfront
  have hframes := hc.frames more
  rw [hmore, decode_streamOf hsizes, decode_append_of_whole hwhole, ← hc.front_eq hwhole] at hframes
  rw [hframes]
  exact List.mem_append_right _ List.mem_cons_self

/-- **A client that sends only short frames is never refused for want of memory**, whatever `malloc`
returns: at no time in a run was there anything else in its ring. -/
theorem affords_of_sent (hshort : ∀ f ∈ fs, f.payload.length ≤ 256) {as : List Act}
    (hs : Framed (s.conns i)) (hocc : Along step (Occupies i) s as) (hrun : run step s as = some t)
    (hsent : (t.conns i).received <+: streamOf fs) : Along step (Affords i) s as := by
  have hsizes : ∀ f ∈ fs, f.size ≤ 65536 := fun f hf => size_le_of_short (hshort f hf)
  induction as generalizing s with
  | nil => exact along_nil s
  | cons a as ih =>
      obtain ⟨s', hstep, hrun'⟩ := run_cons_iff.1 hrun
      have hs' := step_framed hs hstep
      have hreceived : (s.conns i).received <+: streamOf fs :=
        run_induction (I := fun u => (s.conns i).received <+: (u.conns i).received)
          (fun _ _ _ hu hg h => hu.trans (received_of_step hg h)) List.prefix_rfl hocc hrun
          |>.trans hsent
      refine ⟨?_, fun u hu => ?_⟩
      · cases a with
        | frame env =>
            intro _ hfront
            have hmem := front_mem hs hsizes hreceived hfront
            exact gwHandle_isSome (fun hlong => absurd (hshort _ hmem) (Nat.not_le.2 hlong)) _ _
        | turn | poll | dispatch | accept | read | finish | idleScan => trivial
      · obtain rfl : s' = u := Option.some.inj (hstep.symm.trans hu)
        exact ih hs' (hocc.2 s' hstep) hrun'

end Memory

/-! ### The orders of a client arrive -/

/-- The connection in slot `i` is within its rate whenever one of its frames is handled, and the
queue has room then. -/
def Unhindered (i : ℕ) (s : Sys) (a : Act) : Prop :=
  ∀ v ∈ served s a, v.slot = i → WithinRate v.env (s.conns v.slot) ∧ v.env.pushOk = true

instance (i : ℕ) (s : Sys) (a : Act) : Decidable (Unhindered i s a) :=
  inferInstanceAs (Decidable (∀ v ∈ served s a, v.slot = i → _ ∧ _))

/-- **The orders of a client arrive.**  A client sends a key and then orders, in pieces of any size,
while other clients do what they like and `malloc` fails or not.  The messages enqueued for it are
those of the orders whose frames have been handled, each once and in order, if the rate limit and
the queue do not hold them back, and otherwise some of them, in order.  When everything was received
and worked off, the frames of all orders have been handled. -/
theorem client_orders_arrive {maxConns : ℕ} (x : Session maxConns) {t : Sys}
    (hrun : run step x.start x.during = some t) {strtod : List UInt8 → Int64}
    (hstrtod : ∀ k ∈ x.frames, k.2.strtod = strtod) {key : List UInt8} (hkey : key ∈ gApiKeys)
    (orders : List ClientOrder) (hshort : ∀ o ∈ orders, o.orderText.length < 256)
    (hsent : (t.conns x.slot).received <+: streamOf (clientFrames key orders)) :
    (∃ some, some.Sublist (orders.take ((t.conns x.slot).handled.length - 1)) ∧
      List.Forall₂ (Conveys strtod) some x.messages) ∧
    (Along step (Unhindered x.slot) x.start x.during →
      List.Forall₂ (Conveys strtod) (orders.take ((t.conns x.slot).handled.length - 1))
        x.messages) ∧
    ((t.conns x.slot).received = streamOf (clientFrames key orders) →
      t.pc.processing ≠ some x.slot →
        (t.conns x.slot).handled.length = orders.length + 1) := by
  have hpayloads := fun f hf => length_payload_of_clientFrame (f := f) hkey hshort hf
  have hdecode : decode (streamOf (clientFrames key orders)) = clientFrames key orders :=
    decode_streamOf fun f hf => size_le_of_short (hpayloads f hf)
  have hstart : Streamed x.start x.slot := streamed_of_accepted x.accepted
  have hafford := affords_of_sent hpayloads hstart.framed x.occupied hrun hsent
  have hstream : Streamed t x.slot :=
    run_induction (I := fun s => Streamed s x.slot) (fun _ _ _ => step_streamed) hstart hafford hrun
  -- the frames of the session are the frames handled, and those begin what the client sends
  have hhandled : (t.conns x.slot).handled = x.frames.map Prod.fst := by
    have h := handled_of_run (along_and_iff.2 ⟨hafford, x.occupied⟩) hrun
    rw [x.accepted] at h
    exact h
  have hframes : x.frames.map Prod.fst <+: clientFrames key orders := by
    obtain ⟨more, hmore⟩ := hsent
    have h := hstream.framed.frames more
    rw [hmore, hdecode, hhandled] at h
    exact ⟨_, h.symm⟩
  have hlength : (t.conns x.slot).handled.length = x.frames.length := by
    rw [hhandled, List.length_map]
  have hclient : ∀ k ∈ x.frames, k.1 ∈ clientFrames key orders :=
    fun k hk => hframes.subset (List.mem_map_of_mem hk)
  have hself := fun k hk => selfContained_of_clientFrame hkey (hclient k hk)
  have hasked := asked_client hkey hshort hstrtod hframes
  rw [hlength]
  refine ⟨?_, fun hfree => ?_, fun hall hdone => ?_⟩
  · exact exists_sublist_of_forall₂ hasked (messages_sublist_asked x hself)
  · rw [messages_eq_asked x (fun f => selfContained_of_clientFrame hkey) hclient ?_ hfree]
    · exact hasked
    · intro s a env f hg hf hserved
      obtain ⟨hrate, hpush⟩ := hg _ hserved rfl
      exact ⟨hpush, fun req hreq => passes_of_clientFrame hkey hshort hf hreq hrate⟩
  · rw [← hlength, hstream.decodesStream.all hdone, hall, hdecode, clientFrames,
      List.length_cons, List.length_map]

/-- An order for three of `X`. -/
def smallOrder : ClientOrder where
  userId := 7
  symbol := [ascii 'X']
  price := [ascii '1', ascii '.', ascii '5']
  quantity := 3
  side := .buy
  type := .limit
  symbol_ne := by decide
  symbol_le := by decide
  symbol_nul := by decide
  symbol_pipe := by decide
  price_pipe := by decide

/-- The bytes of a client that sends it. -/
def smallStream : List UInt8 := streamOf (clientFrames (gApiKeys.headD []) [smallOrder])

/-- They arrive in two pieces, the first of which ends within the order. -/
def smallRun : List Act :=
  readTurn 0 ++ [.read (.data (smallStream.take 50) 0), .frame .calm, .frame .calm,
    .read (.data (smallStream.drop 50) 0), .frame .calm, .frame .calm] ++ endTurn

/-- The state after them. -/
def afterSmallRun : Sys := (run step firstConnected smallRun).get (by decide +kernel)

theorem reached_firstConnected :
    run step (btGatewayCreate 2) (acceptTurn 3) = some firstConnected :=
  (Option.some_get _).symm

theorem accepted_firstConnected : firstConnected.conns 0 = .accepted 3 0 := rfl

theorem occupies_smallRun : Along step (Occupies 0) firstConnected smallRun := by decide +kernel

/-- The session of the client. -/
def smallSession : Session 2 where
  before := acceptTurn 3
  start := firstConnected
  reached := reached_firstConnected
  slot := 0
  cfd := 3
  now := 0
  accepted := accepted_firstConnected
  during := smallRun
  occupied := occupies_smallRun

theorem frames_smallSession {k : Frame × FrameEnv} (hk : k ∈ smallSession.frames) :
    k.2.strtod = fun _ => 0 := by
  have hcalm : ∀ env, Act.frame env ∈ smallRun → env = .calm := fun env henv => by
    simpa [smallRun, readTurn, endTurn] using henv
  change k ∈ observed step (sends 0) firstConnected smallRun at hk
  rw [sends_of_env hcalm] at hk
  obtain ⟨f, -, rfl⟩ := List.mem_map.1 hk
  rfl

/-- The conditions of `Gateway.client_orders_arrive` hold of the session `Gateway.smallSession`, at
the end of which the order is in the queue. -/
theorem client_orders_arrive_small :
    (afterSmallRun.conns 0).handled.length = 2 ∧
      List.Forall₂ (Conveys fun _ => 0) [smallOrder] smallSession.messages := by
  have hhandled : (afterSmallRun.conns 0).handled.length = 2 := by decide +kernel
  have harrive := client_orders_arrive smallSession (t := afterSmallRun) (Option.some_get _).symm
    (fun k hk => frames_smallSession hk)
    (show gApiKeys.headD [] ∈ gApiKeys by decide) [smallOrder] (by decide +kernel)
    (by decide +kernel)
  refine ⟨hhandled, ?_⟩
  have hall := harrive.2.1 (by decide +kernel)
  rw [show (afterSmallRun.conns smallSession.slot).handled.length = 2 from hhandled] at hall
  exact hall

end Gateway
