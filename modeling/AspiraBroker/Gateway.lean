/-
**One connection of the gateway: its rings, its frames, and what a frame does.**

The connection functions of `gateway.c`.  Bytes arrive in a receive ring, and `gw_process_data`
takes frames off its front: a total length of four bytes in network order, a type, and the payload.
An `A` frame authenticates the connection, an `O` or `B` frame carries an order, a `C` frame a
cancel; before a connection is authenticated every other frame is skipped.  Orders pass the rate
limit and the idempotency ring of the gateway on their way to the queue of the order management.
Responses go out through a send ring.

Payloads are copied to a local buffer which nothing initialises; what it held before is chosen by
the environment, as is everything that a call into the system returns.

Main definitions:

* `Gateway.gwRingReadable`, `Gateway.gwRingPeek`, … — the ring helpers;
* `Gateway.gwValidateApiKey` — the key check;
* `Gateway.Conn`, `Gateway.Ctx` — a connection and what the connections share;
* `Gateway.gwPushOrder`, `Gateway.gwHandle` — what a frame does;
* `Gateway.frameRequest`, `Gateway.gwServe` — the same in two parts: what the frame asks for, and
  what is done about it;
* `Gateway.gwProcessRound` — one round of the loop of `gw_process_data`;
* `Gateway.gwSendToConn`, `Gateway.gwFlushSend` — the send path.

Main results:

* `Gateway.gwRingPeek_eq_window` — a peek reads the ring, wrapped or not;
* `Gateway.gwValidateApiKey_iff` — **the key check compares 32 bytes of the buffer**, whatever the
  length of the payload in it;
* `Gateway.gwHandle_eq` — a frame is read and then served;
* `Gateway.handled_of_gwHandle`, `Gateway.round_of_gwProcessRound` — everything a frame and a round
  can do.
-/

import AspiraBroker.GatewayParse

set_option relaxedAutoImplicit false
set_option autoImplicit false

namespace Gateway

open Ring

/-! ### The rings -/

/-- `BT_CFG_RECV_BUF_SIZE` and `GW_SEND_RING_SIZE`, `65536` bytes each. -/
def bufCapacity : Capacity := ⟨16, by decide⟩

/-- `BT_CFG_RECV_BUF_SIZE`. -/
def btCfgRecvBufSize : ℕ := 64 * 1024

theorem slots_bufCapacity : bufCapacity.slots = btCfgRecvBufSize := rfl

/-- `gw_ring_readable`. -/
def gwRingReadable (head tail mask : ℕ) : ℕ :=
  if head ≤ tail then tail - head else mask + 1 - head + tail

/-- `gw_ring_writable`. -/
def gwRingWritable (head tail mask : ℕ) : ℕ := mask - gwRingReadable head tail mask

/-- `gw_ring_peek`: the `len` bytes at offset `off` behind the head, in one copy or in two. -/
def gwRingPeek (buf : ℕ → UInt8) (head off len mask : ℕ) : List UInt8 :=
  let pos := (head + off) &&& mask
  let first := mask + 1 - pos
  if len ≤ first then slice buf pos len
  else slice buf pos first ++ slice buf 0 (len - first)

/-- `gw_ring_advance`. -/
def gwRingAdvance (cursor delta mask : ℕ) : ℕ := (cursor + delta) &&& mask

section Rings

variable (N : Capacity)

/-- What lies between two cursors, given the counters behind them. -/
theorem gwRingReadable_eq {h t : ℕ} (hle : h ≤ t) (hlt : t < h + N.slots) :
    gwRingReadable (h % N.slots) (t % N.slots) N.mask = t - h := by
  have hpos := N.slots_pos
  have hh := Nat.mod_add_div h N.slots
  have ht := Nat.mod_add_div t N.slots
  have hhs := N.index_lt h
  have hts := N.index_lt t
  have hmask := N.mask_add_one
  rw [gwRingReadable, hmask]
  -- the tail is in the head's lap or in the next one
  rcases Nat.lt_or_ge (h / N.slots) (t / N.slots) with hlap | hlap
  · have hnext : t / N.slots = h / N.slots + 1 := by
      refine le_antisymm ?_ hlap
      have hq := Nat.div_le_div_right (c := N.slots) hlt.le
      rwa [Nat.add_div_right _ hpos] at hq
    rw [hnext, Nat.mul_succ] at ht
    rw [if_neg (by omega)]
    omega
  · have hsame : t / N.slots = h / N.slots :=
      le_antisymm hlap (Nat.div_le_div_right hle)
    rw [hsame] at ht
    rw [if_pos (by omega)]
    omega

/-- **A peek reads the ring**, wrapped or not. -/
theorem gwRingPeek_eq_window (buf : ℕ → UInt8) (head off : ℕ) {len : ℕ} (hlen : len ≤ N.slots) :
    gwRingPeek buf head off len N.mask = window N.slots buf (head + off) len := by
  have hpos := N.index_lt (head + off)
  simp only [gwRingPeek, N.and_mask, N.mask_add_one]
  rw [← window_mod_head]
  split
  case isTrue hfirst => exact (window_eq_slice (by omega)).symm
  case isFalse hfirst => exact slice_append_slice hpos.le (by omega) hlen

/-- Advancing a cursor is advancing the counter behind it. -/
theorem gwRingAdvance_eq (c delta : ℕ) :
    gwRingAdvance (c % N.slots) delta N.mask = (c + delta) % N.slots := by
  rw [gwRingAdvance, N.and_mask, Nat.mod_add_mod]

end Rings

/-! ### API keys -/

/-- `BT_API_KEY_LEN`. -/
def btApiKeyLen : ℕ := 32

/-- `g_api_keys`: `test-key-` and `benchmark-key-`, filled up with zeros to 32 characters. -/
def gApiKeys : List (List UInt8) :=
  [['t', 'e', 's', 't', '-', 'k', 'e', 'y', '-'].map ascii ++ List.replicate 23 (ascii '0'),
    ['b', 'e', 'n', 'c', 'h', 'm', 'a', 'r', 'k', '-', 'k', 'e', 'y', '-'].map ascii
      ++ List.replicate 18 (ascii '0')]

/-- Whether `strncmp(a + i, b + i, n)` is zero: the comparison ends at the first difference, at the
end of both strings, or after `n` characters. -/
def strncmpZero (a b : ℕ → UInt8) : ℕ → ℕ → Bool
  | _, 0 => true
  | i, n + 1 => if a i ≠ b i then false else if a i = 0 then true else strncmpZero a b (i + 1) n

/-- `gw_validate_api_key`, on the bytes that the pointer leads to. -/
def gwValidateApiKey (key : ℕ → UInt8) : Bool :=
  if key 0 = 0 then false
  else gApiKeys.any fun k => strncmpZero key (fun i => k.getD i 0) 0 btApiKeyLen

/-- Against a string that does not end within `n` characters, all `n` characters are compared. -/
theorem strncmpZero_iff {a b : ℕ → UInt8} {i n : ℕ} (hb : ∀ j < n, b (i + j) ≠ 0) :
    strncmpZero a b i n = true ↔ slice a i n = slice b i n := by
  induction n generalizing i with
  | zero => simp [strncmpZero, slice]
  | succ n ih =>
      have hi : b i ≠ 0 := by simpa using hb 0 (Nat.succ_pos n)
      have hrest : ∀ j < n, b (i + 1 + j) ≠ 0 := fun j hj => by
        simpa [Nat.add_assoc, Nat.add_comm 1 j] using hb (j + 1) (Nat.succ_lt_succ hj)
      rw [slice_succ, slice_succ, List.cons.injEq, ← ih hrest, strncmpZero]
      by_cases heq : a i = b i
      · simp [heq, hi]
      · simp [heq]

/-- Every key has exactly `BT_API_KEY_LEN` characters, none of them zero. -/
theorem gApiKeys_spec : ∀ k ∈ gApiKeys, slice (fun i => k.getD i 0) 0 btApiKeyLen = k ∧
    k.headD 0 ≠ 0 ∧ ∀ j < btApiKeyLen, k.getD j 0 ≠ 0 := by
  decide

/-- **The key check compares 32 bytes of the buffer**, whatever the length of the payload in it. -/
theorem gwValidateApiKey_iff (key : ℕ → UInt8) :
    gwValidateApiKey key = true ↔ slice key 0 btApiKeyLen ∈ gApiKeys := by
  have hany : (gApiKeys.any fun k => strncmpZero key (fun i => k.getD i 0) 0 btApiKeyLen) = true ↔
      slice key 0 btApiKeyLen ∈ gApiKeys := by
    rw [List.any_eq_true]
    constructor
    · rintro ⟨k, hk, hcmp⟩
      obtain ⟨hseg, -, hnz⟩ := gApiKeys_spec k hk
      rw [strncmpZero_iff (by simpa using hnz), hseg] at hcmp
      exact hcmp ▸ hk
    · intro hk
      obtain ⟨hseg, -, hnz⟩ := gApiKeys_spec _ hk
      exact ⟨_, hk, (strncmpZero_iff (by simpa using hnz)).2 hseg.symm⟩
  rw [gwValidateApiKey]
  split
  case isTrue h0 =>
    -- a key does not start with the end of a string
    refine iff_of_false Bool.false_ne_true fun hk => ?_
    have hfirst : (slice key 0 btApiKeyLen).headD 0 = key 0 := by
      rw [btApiKeyLen, slice_succ, List.headD_cons]
    exact (gApiKeys_spec _ hk).2.1 (hfirst.trans h0)
  case isFalse => exact hany

/-! ### Connections -/

/-- A frame: its type and its payload. -/
structure Frame where
  msgType : UInt8
  payload : List UInt8
  deriving DecidableEq

/-- The bytes of a frame with its header. -/
def Frame.size (f : Frame) : ℕ := 5 + f.payload.length

/-- `gw_conn_state_t`. -/
inductive ConnState
  | reading
  | closing
  deriving DecidableEq

/-- `gw_conn_t`, with three histories of the TCP connection in the slot: the bytes that `read` has
delivered, the frames that were taken off the ring, and the bytes that `send` has accepted. -/
structure Conn where
  fd : ℤ
  state : ConnState
  recvBuf : ℕ → UInt8
  recvHead : ℕ
  recvTail : ℕ
  sendBuf : ℕ → UInt8
  sendHead : ℕ
  sendTail : ℕ
  sendPending : Bool
  authenticated : Bool
  authUserId : UInt64
  lastActive : UInt64
  rateWindowStart : UInt64
  rateCount : ℕ
  received : List UInt8
  handled : List Frame
  sent : List UInt8

/-- A slot after `memset`, with the given file descriptor. -/
def Conn.blank (fd : ℤ) : Conn :=
  ⟨fd, .reading, fun _ => 0, 0, 0, fun _ => 0, 0, 0, false, false, 0, 0, 0, 0, [], [], []⟩

/-- A message that went to the queue of the order management, with the frames that had been handled
on its connection before. -/
structure Enqueued where
  msg : OmsMsg
  before : List Frame

/-- What the connections share, of `gw_ctx_t`: the idempotency ring, the count of orders, and the
history of the messages that `BT_MPSC_PUSH` has accepted. -/
structure Ctx where
  idemRing : ℕ → UInt64
  ordersReceived : UInt64
  enqueued : List Enqueued

/-- The context after `calloc`. -/
def Ctx.blank : Ctx := ⟨fun _ => 0, 0, []⟩

/-- Everything the environment decides while one frame is handled: whether `malloc` succeeds, what
the local payload buffer holds before the frame is copied to it, the clock when the request is
stamped and when it is pushed, whether the queue has room, and the C library's reading of a
price. -/
structure FrameEnv where
  mallocOk : Bool
  stale : ℕ → UInt8
  stamp : UInt64
  now : UInt64
  pushOk : Bool
  strtod : List UInt8 → Int64

/-- The choices of an environment in which nothing fails and the local buffer is clear. -/
def FrameEnv.calm : FrameEnv := ⟨true, fun _ => 0, 0, 0, true, fun _ => 0⟩

/-! ### What a frame does -/

/-- `BT_CFG_RATE_LIMIT_RPS`. -/
def btCfgRateLimitRps : ℕ := 10000

/-- `GW_IDEM_RING_SIZE`. -/
def gwIdemRingSize : ℕ := 8192

/-- `BT_MPSC_PUSH` to `out_queue`; its result is ignored. -/
def Ctx.push (g : Ctx) (env : FrameEnv) (c : Conn) (msg : OmsMsg) : Ctx :=
  if env.pushOk then { g with enqueued := g.enqueued ++ [⟨msg, c.handled⟩] } else g

/-- The rate window of `gw_push_order`: a new one starts when the old one is over a second old. -/
def Conn.rateWindow (c : Conn) (now : UInt64) : Conn :=
  if now - c.rateWindowStart > 1000000000 then { c with rateWindowStart := now, rateCount := 0 }
  else c

/-- The end of `gw_push_order`, for an order that is neither over the rate nor a duplicate. -/
def gwAcceptOrder (env : FrameEnv) (g : Ctx) (c : Conn) (req : OrderRequest) : Ctx × Conn :=
  let g := g.push env c (.order req)
  ({ g with ordersReceived := g.ordersReceived + 1 }, { c with rateCount := c.rateCount + 1 })

/-- `gw_push_order`. -/
def gwPushOrder (env : FrameEnv) (g : Ctx) (c : Conn) (req : OrderRequest) : Ctx × Conn :=
  let c := c.rateWindow env.now
  if c.rateCount < btCfgRateLimitRps then
    if req.requestId ≠ 0 then
      let slot := req.requestId.toNat &&& (gwIdemRingSize - 1)
      if g.idemRing slot = req.requestId then (g, c)
      else
        gwAcceptOrder env { g with idemRing := Function.update g.idemRing slot req.requestId } c req
    else gwAcceptOrder env g c req
  else (g, c)

/-- What `gw_process_data` does with a complete frame, before it advances the head; `none` when
`malloc` fails.  The payload is copied to the local buffer over whatever stood there. -/
def gwHandle (env : FrameEnv) (g : Ctx) (c : Conn) (f : Frame) : Option (Ctx × Conn) :=
  let payloadLen := f.payload.length
  let pb := fill env.stale 0 f.payload
  if f.msgType = ascii 'A' then
    if 256 < payloadLen ∧ env.mallocOk = false then none
    else if gwValidateApiKey pb then some (g, { c with authenticated := true, authUserId := 0 })
    else some (g, c)
  else if c.authenticated = false then some (g, c)
  else if f.msgType = ascii 'O' ∨ f.msgType = ascii 'B' then
    if 8192 < payloadLen ∧ env.mallocOk = false then none
    else
      let parsed :=
        if f.msgType = ascii 'B' then gwParseOrderBinary pb payloadLen env.stamp
        else gwParseOrderText env.strtod f.payload env.stamp
      match parsed with
      | some req => some (gwPushOrder env g c req)
      | none => some (g, c)
  else if f.msgType = ascii 'C' then
    if 32 ≤ payloadLen then
      let cbuf := fill env.stale 0 (f.payload.take 64)
      some (g.push env c (.cancel (gwCancelRequest cbuf env.stamp)), c)
    else some (g, c)
  else some (g, c)

/-- What a frame asks for, once it was read: nothing, for want of memory or because it is not
understood or not allowed; to authenticate; an order; a cancel. -/
inductive Request
  | noMemory
  | skip
  | auth
  | order (req : OrderRequest)
  | cancel (req : CancelRequest)

/-- What a frame asks for on a connection that is authenticated or not. -/
def frameRequest (env : FrameEnv) (authenticated : Bool) (f : Frame) : Request :=
  let payloadLen := f.payload.length
  let pb := fill env.stale 0 f.payload
  if f.msgType = ascii 'A' then
    if 256 < payloadLen ∧ env.mallocOk = false then .noMemory
    else if gwValidateApiKey pb then .auth
    else .skip
  else if authenticated = false then .skip
  else if f.msgType = ascii 'O' ∨ f.msgType = ascii 'B' then
    if 8192 < payloadLen ∧ env.mallocOk = false then .noMemory
    else
      match
        if f.msgType = ascii 'B' then gwParseOrderBinary pb payloadLen env.stamp
        else gwParseOrderText env.strtod f.payload env.stamp
      with
      | some req => .order req
      | none => .skip
  else if f.msgType = ascii 'C' then
    if 32 ≤ payloadLen then
      .cancel (gwCancelRequest (fill env.stale 0 (f.payload.take 64)) env.stamp)
    else .skip
  else .skip

/-- What is done about a request. -/
def gwServe (env : FrameEnv) (g : Ctx) (c : Conn) : Request → Option (Ctx × Conn)
  | .noMemory => none
  | .skip => some (g, c)
  | .auth => some (g, { c with authenticated := true, authUserId := 0 })
  | .order req => some (gwPushOrder env g c req)
  | .cancel req => some (g.push env c (.cancel req), c)

/-- **A frame is read and then served**: what it asks for depends only on the frame, on the buffer
it is copied to and on whether the connection is authenticated. -/
theorem gwHandle_eq (env : FrameEnv) (g : Ctx) (c : Conn) (f : Frame) :
    gwHandle env g c f = gwServe env g c (frameRequest env c.authenticated f) := by
  simp only [gwHandle, frameRequest]
  repeat' split
  all_goals rfl

/-! ### The loop over the frames -/

/-- The bytes in the receive ring. -/
def Conn.readable (c : Conn) : ℕ := gwRingReadable c.recvHead c.recvTail bufCapacity.mask

/-- The length field at the front of the receive ring. -/
def Conn.msgLen (c : Conn) : ℕ := beNat (gwRingPeek c.recvBuf c.recvHead 0 4 bufCapacity.mask)

/-- The frame at the front of the receive ring. -/
def Conn.front (c : Conn) : Frame where
  msgType := (gwRingPeek c.recvBuf c.recvHead 4 1 bufCapacity.mask).headD 0
  payload := gwRingPeek c.recvBuf c.recvHead 5 (c.msgLen - 5) bufCapacity.mask

/-- A whole frame of an admissible length is at the front of the receive ring. -/
def Conn.Complete (c : Conn) : Prop :=
  5 ≤ c.readable ∧ 5 ≤ c.msgLen ∧ c.msgLen ≤ btCfgRecvBufSize ∧ c.msgLen ≤ c.readable

instance (c : Conn) : Decidable c.Complete :=
  inferInstanceAs (Decidable (_ ∧ _ ∧ _ ∧ _))

/-- One round of the loop of `gw_process_data`: the state after it, and whether the loop goes on. -/
def gwProcessRound (env : FrameEnv) (g : Ctx) (c : Conn) : Ctx × Conn × Bool :=
  if c.readable < 5 then (g, c, false)
  else if c.msgLen < 5 ∨ btCfgRecvBufSize < c.msgLen then (g, { c with state := .closing }, false)
  else if c.readable < c.msgLen then (g, c, false)
  else
    match gwHandle env g c c.front with
    | none => (g, { c with state := .closing }, false)
    | some (g', c') =>
        (g',
          { c' with
            recvHead := gwRingAdvance c.recvHead c.msgLen bufCapacity.mask
            handled := c.handled ++ [c.front] },
          true)

/-! ### The send path -/

/-- `sizeof(bt_order_response_t)`. -/
def sizeofOrderResponse : ℕ := 88

/-- A `bt_order_response_t`, as the gateway sees it: that many bytes. -/
structure OrderResponse where
  bytes : List UInt8
  size : bytes.length = sizeofOrderResponse

/-- The bytes of a response on the wire: the total length, the type `R`, the response. -/
def OrderResponse.wire (resp : OrderResponse) : List UInt8 :=
  0 :: 0 :: 0 :: 93 :: ascii 'R' :: resp.bytes

/-- Bytes written one by one around a ring, from the counter `pos` on. -/
def ringWrite (mask : ℕ) : (ℕ → UInt8) → ℕ → List UInt8 → ℕ → UInt8
  | buf, _, [] => buf
  | buf, pos, b :: bs => ringWrite mask (Function.update buf (pos &&& mask) b) (pos + 1) bs

/-- `gw_send_to_conn`: a response for which the ring has no room is dropped. -/
def gwSendToConn (c : Conn) (resp : OrderResponse) : Conn :=
  if gwRingWritable c.sendHead c.sendTail bufCapacity.mask < sizeofOrderResponse + 5 then c
  else
    { c with
      sendBuf := ringWrite bufCapacity.mask c.sendBuf c.sendTail resp.wire
      sendTail := gwRingAdvance c.sendTail (5 + sizeofOrderResponse) bufCapacity.mask }

/-- What a call of `send` returns: a positive count, `EAGAIN`, or another error. -/
inductive SendResult
  | sent (n : ℕ)
  | again
  | error

/-- `to_write`: the bytes up to the end of the data or of the array. -/
def Conn.toWrite (c : Conn) : ℕ :=
  min (bufCapacity.slots - c.sendHead) (gwRingReadable c.sendHead c.sendTail bufCapacity.mask)

/-- `gw_flush_send`, for the results of its calls of `send` in turn; `none` when they are not
results of these calls. -/
def gwFlushSend : List SendResult → Conn → Option Conn
  | [], c => if c.sendHead = c.sendTail then some c else none
  | r :: rs, c =>
      if c.sendHead = c.sendTail then some c
      else
        match r with
        | .sent n =>
            if 1 ≤ n ∧ n ≤ c.toWrite then
              gwFlushSend rs
                { c with
                  sendHead := gwRingAdvance c.sendHead n bufCapacity.mask
                  sent := c.sent ++ slice c.sendBuf c.sendHead n }
            else none
        | .again => some c
        | .error => some { c with state := .closing }

/-! ### What the functions leave alone -/

/-- The receive side and its histories are the same, and so is what the connection has earned. -/
structure SameStream (c c' : Conn) : Prop where
  recvBuf : c'.recvBuf = c.recvBuf
  recvHead : c'.recvHead = c.recvHead
  recvTail : c'.recvTail = c.recvTail
  received : c'.received = c.received
  handled : c'.handled = c.handled
  authenticated : c'.authenticated = c.authenticated

theorem SameStream.refl (c : Conn) : SameStream c c := ⟨rfl, rfl, rfl, rfl, rfl, rfl⟩

theorem SameStream.trans {c c' c'' : Conn} (h : SameStream c c') (h' : SameStream c' c'') :
    SameStream c c'' :=
  ⟨h'.recvBuf.trans h.recvBuf, h'.recvHead.trans h.recvHead, h'.recvTail.trans h.recvTail,
    h'.received.trans h.received, h'.handled.trans h.handled,
    h'.authenticated.trans h.authenticated⟩

theorem sameStream_rateWindow (c : Conn) (now : UInt64) : SameStream c (c.rateWindow now) := by
  unfold Conn.rateWindow
  split
  · exact ⟨rfl, rfl, rfl, rfl, rfl, rfl⟩
  · exact .refl c

/-- Nothing but the send side of the connection has changed, and at most it was marked. -/
structure SendOnly (c c' : Conn) : Prop where
  fd : c'.fd = c.fd
  reading : c'.state = .reading → c.state = .reading
  stream : SameStream c c'
  lastActive : c'.lastActive = c.lastActive
  rateWindowStart : c'.rateWindowStart = c.rateWindowStart
  rateCount : c'.rateCount = c.rateCount

theorem SendOnly.refl (c : Conn) : SendOnly c c := ⟨rfl, id, .refl c, rfl, rfl, rfl⟩

theorem SendOnly.trans {c c' c'' : Conn} (h : SendOnly c c') (h' : SendOnly c' c'') :
    SendOnly c c'' :=
  ⟨h'.fd.trans h.fd, h.reading ∘ h'.reading, h.stream.trans h'.stream,
    h'.lastActive.trans h.lastActive, h'.rateWindowStart.trans h.rateWindowStart,
    h'.rateCount.trans h.rateCount⟩

theorem sendOnly_closing (c : Conn) : SendOnly c { c with state := .closing } :=
  ⟨rfl, nofun, ⟨rfl, rfl, rfl, rfl, rfl, rfl⟩, rfl, rfl, rfl⟩

theorem sendOnly_gwSendToConn (c : Conn) (resp : OrderResponse) :
    SendOnly c (gwSendToConn c resp) := by
  unfold gwSendToConn
  split
  · exact .refl c
  · exact ⟨rfl, id, ⟨rfl, rfl, rfl, rfl, rfl, rfl⟩, rfl, rfl, rfl⟩

theorem sendOnly_gwFlushSend {rs : List SendResult} {c c' : Conn}
    (h : gwFlushSend rs c = some c') : SendOnly c c' := by
  induction rs generalizing c with
  | nil =>
      simp only [gwFlushSend, Option.ite_none_right_eq_some, Option.some.injEq] at h
      exact h.2 ▸ .refl c
  | cons r rs ih =>
      unfold gwFlushSend at h
      split at h
      · exact Option.some.inj h ▸ .refl c
      · cases r with
        | sent n =>
            simp only [Option.ite_none_right_eq_some] at h
            refine SendOnly.trans ?_ (ih h.2)
            exact ⟨rfl, id, ⟨rfl, rfl, rfl, rfl, rfl, rfl⟩, rfl, rfl, rfl⟩
        | again => exact Option.some.inj h ▸ .refl c
        | error => exact Option.some.inj h ▸ sendOnly_closing c

/-! ### Everything a frame and a round can do -/

/-- The messages that were enqueued: the old ones, or one more on an authenticated connection. -/
def EnqueuesFor (c : Conn) (g g' : Ctx) : Prop :=
  g'.enqueued = g.enqueued ∨
    c.authenticated = true ∧ ∃ msg, g'.enqueued = g.enqueued ++ [⟨msg, c.handled⟩]

/-- What a frame can do: authenticate the connection, or leave the connection as it was and enqueue
at most one message, which only an authenticated connection can. -/
inductive Handled (env : FrameEnv) (g : Ctx) (c : Conn) (f : Frame) : Ctx → Conn → Prop
  | auth (hA : f.msgType = ascii 'A')
      (hkey : gwValidateApiKey (fill env.stale 0 f.payload) = true) :
      Handled env g c f g { c with authenticated := true, authUserId := 0 }
  | other {g' : Ctx} {c' : Conn} (hsame : SameStream c c') (hout : EnqueuesFor c g g') :
      Handled env g c f g' c'

theorem enqueuesFor_push {g : Ctx} {c c' : Conn} (hauth : c.authenticated = true)
    (hsame : SameStream c c') (env : FrameEnv) (msg : OmsMsg) :
    EnqueuesFor c g (g.push env c' msg) := by
  unfold Ctx.push
  split
  · exact .inr ⟨hauth, msg, by rw [hsame.handled]⟩
  · exact .inl rfl

theorem handled_gwPushOrder {env : FrameEnv} {g : Ctx} {c : Conn} (hauth : c.authenticated = true)
    (f : Frame) (req : OrderRequest) :
    Handled env g c f (gwPushOrder env g c req).1 (gwPushOrder env g c req).2 := by
  have hsame := sameStream_rateWindow c env.now
  have haccept : ∀ g₀ : Ctx, g₀.enqueued = g.enqueued →
      Handled env g c f (gwAcceptOrder env g₀ (c.rateWindow env.now) req).1
        (gwAcceptOrder env g₀ (c.rateWindow env.now) req).2 := by
    intro g₀ hg₀
    refine .other (hsame.trans ⟨rfl, rfl, rfl, rfl, rfl, rfl⟩) ?_
    rcases enqueuesFor_push (g := g₀) hauth hsame env (.order req) with h | ⟨_, msg, h⟩
    · exact .inl (h.trans hg₀)
    · exact .inr ⟨hauth, msg, by rw [← hg₀]; exact h⟩
  simp only [gwPushOrder]
  -- over the rate and duplicate: nothing but the rate window has changed
  split
  · split
    · split
      · exact .other hsame (.inl rfl)
      · exact haccept _ rfl
    · exact haccept g rfl
  · exact .other hsame (.inl rfl)

/-- Only an `A` frame asks to authenticate, with a key in the buffer. -/
theorem key_of_frameRequest {env : FrameEnv} {authenticated : Bool} {f : Frame}
    (h : frameRequest env authenticated f = .auth) :
    f.msgType = ascii 'A' ∧ gwValidateApiKey (fill env.stale 0 f.payload) = true := by
  simp only [frameRequest] at h
  split at h
  case isTrue hA =>
    refine ⟨hA, ?_⟩
    by_contra hkey
    rw [if_neg hkey] at h
    split at h <;> cases h
  case isFalse =>
    repeat' split at h
    all_goals cases h

/-- Only an authenticated connection asks for anything else. -/
theorem authenticated_of_frameRequest {env : FrameEnv} {authenticated : Bool} {f : Frame}
    {r : Request} (h : frameRequest env authenticated f = r) (hmem : r ≠ .noMemory)
    (hskip : r ≠ .skip) (hkey : r ≠ .auth) : authenticated = true := by
  by_contra hnot
  rw [Bool.not_eq_true] at hnot
  simp only [frameRequest, hnot, if_true] at h
  split at h
  · split at h
    · exact hmem h.symm
    · split at h
      · exact hkey h.symm
      · exact hskip h.symm
  · exact hskip h.symm

/-- **Everything a frame can do.** -/
theorem handled_of_gwHandle {env : FrameEnv} {g g' : Ctx} {c c' : Conn} {f : Frame}
    (h : gwHandle env g c f = some (g', c')) : Handled env g c f g' c' := by
  rw [gwHandle_eq] at h
  cases hreq : frameRequest env c.authenticated f with
  | noMemory => simp [hreq, gwServe] at h
  | skip =>
      rw [hreq] at h
      cases h
      exact .other (.refl c) (.inl rfl)
  | auth =>
      rw [hreq] at h
      cases h
      obtain ⟨hA, hkey⟩ := key_of_frameRequest hreq
      exact .auth hA hkey
  | order req =>
      have hauth := authenticated_of_frameRequest hreq nofun nofun nofun
      have hpush : Handled env g c f (gwPushOrder env g c req).1 (gwPushOrder env g c req).2 :=
        handled_gwPushOrder hauth f req
      rw [hreq, gwServe] at h
      rwa [Option.some.inj h] at hpush
  | cancel req =>
      have hauth := authenticated_of_frameRequest hreq nofun nofun nofun
      rw [hreq] at h
      cases h
      exact .other (.refl c) (enqueuesFor_push hauth (.refl c) env _)

/-- A frame is handled unless it is long and `malloc` does not give the memory for it. -/
theorem gwHandle_isSome {env : FrameEnv} {f : Frame}
    (hmalloc : 256 < f.payload.length → env.mallocOk = true) (g : Ctx) (c : Conn) :
    (gwHandle env g c f).isSome = true := by
  have hmemory : ∀ {n : ℕ}, 256 ≤ n → ¬ (n < f.payload.length ∧ env.mallocOk = false) := by
    rintro n hn ⟨hlong, hfail⟩
    rw [hmalloc (hn.trans_lt hlong)] at hfail
    cases hfail
  unfold gwHandle
  simp only [hmemory le_rfl, hmemory (by decide : 256 ≤ 8192), if_false]
  repeat' split
  all_goals rfl

/-- What a round can do: stop because no whole frame is in the ring, stop and mark the connection
because of a bad length or for want of memory, or take a frame off the ring and go on. -/
inductive Round (env : FrameEnv) (g : Ctx) (c : Conn) : Ctx → Conn → Bool → Prop
  | short (hshort : c.readable < 5) : Round env g c g c false
  | badLength (hlen : 5 ≤ c.readable) (hbad : c.msgLen < 5 ∨ btCfgRecvBufSize < c.msgLen) :
      Round env g c g { c with state := .closing } false
  | incomplete (hlen : 5 ≤ c.msgLen) (hshort : c.readable < c.msgLen) : Round env g c g c false
  | noMemory (hfront : c.Complete) (hhandle : gwHandle env g c c.front = none) :
      Round env g c g { c with state := .closing } false
  | frame {g' : Ctx} {c' : Conn} (hfront : c.Complete)
      (hhandled : Handled env g c c.front g' c') :
      Round env g c g'
        { c' with
          recvHead := gwRingAdvance c.recvHead c.msgLen bufCapacity.mask
          handled := c.handled ++ [c.front] }
        true

/-- **Everything a round can do.** -/
theorem round_of_gwProcessRound (env : FrameEnv) (g : Ctx) (c : Conn) :
    Round env g c (gwProcessRound env g c).1 (gwProcessRound env g c).2.1
      (gwProcessRound env g c).2.2 := by
  unfold gwProcessRound
  split
  case isTrue hshort => exact .short hshort
  case isFalse hlong =>
    split
    case isTrue hbad => exact .badLength (Nat.not_lt.1 hlong) hbad
    case isFalse hgood =>
      rw [not_or, Nat.not_lt, Nat.not_lt] at hgood
      split
      case isTrue hshort => exact .incomplete hgood.1 hshort
      case isFalse hall =>
        have hfront : c.Complete := ⟨Nat.not_lt.1 hlong, hgood.1, hgood.2, Nat.not_lt.1 hall⟩
        cases hframe : gwHandle env g c c.front with
        | none => exact .noMemory hfront hframe
        | some p => exact .frame hfront (handled_of_gwHandle hframe)

section Rounds

variable {env : FrameEnv} {g g' : Ctx} {c c' : Conn}

/-- A round that finds a whole frame handles it. -/
theorem gwProcessRound_of_complete (h : c.Complete)
    (hhandle : gwHandle env g c c.front = some (g', c')) :
    gwProcessRound env g c = (g', { c' with
      recvHead := gwRingAdvance c.recvHead c.msgLen bufCapacity.mask
      handled := c.handled ++ [c.front] }, true) := by
  obtain ⟨hfive, hmin, hmax, hall⟩ := h
  rw [gwProcessRound, if_neg (by omega), if_neg (by omega), if_neg (by omega), hhandle]

/-- Without the memory for the frame the connection is marked. -/
theorem gwProcessRound_of_noMemory (h : c.Complete) (hhandle : gwHandle env g c c.front = none) :
    gwProcessRound env g c = (g, { c with state := .closing }, false) := by
  obtain ⟨hfive, hmin, hmax, hall⟩ := h
  rw [gwProcessRound, if_neg (by omega), if_neg (by omega), if_neg (by omega), hhandle]

/-- A round that finds no whole frame at most marks the connection. -/
theorem sendOnly_gwProcessRound (h : ¬ c.Complete) :
    (gwProcessRound env g c).1 = g ∧ SendOnly c (gwProcessRound env g c).2.1 := by
  have hround := round_of_gwProcessRound env g c
  generalize (gwProcessRound env g c).1 = g₁, (gwProcessRound env g c).2.1 = c₁,
    (gwProcessRound env g c).2.2 = on at hround ⊢
  cases hround with
  | short | incomplete => exact ⟨rfl, .refl c⟩
  | badLength | noMemory => exact ⟨rfl, sendOnly_closing c⟩
  | frame hfront => exact absurd hfront h

end Rounds

end Gateway
