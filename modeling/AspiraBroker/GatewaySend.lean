/-
**Responses reach the client as whole frames.**

`gw_send_to_conn` writes a response byte by byte around the send ring of a connection, or drops it
when the ring has no room for all of it; `gw_flush_send` hands the bytes of the ring to `send`,
which takes as many of them as it likes.  A frame may thus wrap around the end of the ring and be
sent in any number of pieces.  What is sent, followed by what is still in the ring, is nevertheless
always a concatenation of whole frames: those of the responses that were not dropped.

Main definitions:

* `Gateway.Outgoing` — everything that was ever put into the ring, in terms of what was sent and
  what the ring still holds;
* `Gateway.SendAct`, `Gateway.Outbox`, `Gateway.sendStep` — calls of the two functions in any order;
* `Gateway.Conn.unsent` — the bytes in the send ring;
* `Gateway.Answers` — results that calls of `send` may return.

Main results:

* `Gateway.outgoing_gwSendToConn`, `Gateway.outgoing_gwFlushSend` — what the two functions do;
* `Gateway.gwFlushSend_returns` — **`gw_flush_send` terminates**, within as many calls of `send` as
  there are bytes in the ring;
* `Gateway.responses_sent_whole` — **responses reach the client as whole frames**.
-/

import AspiraBroker.GatewayThread

set_option relaxedAutoImplicit false
set_option autoImplicit false

namespace Gateway

open Ring Transition

/-! ### The send ring -/

/-- The bytes in the send ring. -/
def Conn.unsent (c : Conn) : List UInt8 :=
  window bufCapacity.slots c.sendBuf c.sendHead
    (gwRingReadable c.sendHead c.sendTail bufCapacity.mask)

/-- The bytes `bs` were put into the ring, in this order: the first of them were sent and the others
lie between the cursors. -/
structure Outgoing (c : Conn) (bs : List UInt8) : Prop where
  le : c.sent.length ≤ bs.length
  room : bs.length < c.sent.length + bufCapacity.slots
  head : c.sendHead = c.sent.length % bufCapacity.slots
  tail : c.sendTail = bs.length % bufCapacity.slots
  holds : c.sent ++ window bufCapacity.slots c.sendBuf c.sent.length (bs.length - c.sent.length)
    = bs

/-- A connection that was cleared has put nothing into its ring. -/
theorem outgoing_blank (fd : ℤ) : Outgoing (.blank fd) [] where
  le := le_rfl
  room := by simpa [Conn.blank] using bufCapacity.slots_pos
  head := by simp [Conn.blank]
  tail := by simp [Conn.blank]
  holds := by simp [Conn.blank]

namespace Outgoing

variable {c : Conn} {bs : List UInt8}

/-- Only the send side matters. -/
theorem congr {c' : Conn} (h : Outgoing c bs) (hbuf : c'.sendBuf = c.sendBuf)
    (hhead : c'.sendHead = c.sendHead) (htail : c'.sendTail = c.sendTail)
    (hsent : c'.sent = c.sent) : Outgoing c' bs where
  le := hsent ▸ h.le
  room := hsent ▸ h.room
  head := by rw [hhead, hsent, h.head]
  tail := by rw [htail, h.tail]
  holds := by rw [hsent, hbuf, h.holds]

theorem readable_eq (h : Outgoing c bs) :
    gwRingReadable c.sendHead c.sendTail bufCapacity.mask = bs.length - c.sent.length := by
  rw [h.head, h.tail, gwRingReadable_eq bufCapacity h.le h.room]

/-- The ring holds what was put into it and not yet sent. -/
theorem sent_append_unsent (h : Outgoing c bs) : c.sent ++ c.unsent = bs := by
  rw [Conn.unsent, h.readable_eq, h.head, window_mod_head, h.holds]

theorem length_unsent (h : Outgoing c bs) : c.unsent.length = bs.length - c.sent.length := by
  rw [Conn.unsent, length_window, h.readable_eq]

/-- The cursors meet when everything was sent. -/
theorem empty_iff (h : Outgoing c bs) : c.sendHead = c.sendTail ↔ c.sent.length = bs.length := by
  rw [h.head, h.tail]
  exact bufCapacity.index_eq_iff_empty h.le h.room

end Outgoing

/-- A new connection has put nothing into its ring. -/
theorem outgoing_accepted (cfd : ℕ) (now : UInt64) : Outgoing (.accepted cfd now) [] :=
  (outgoing_blank cfd).congr rfl rfl rfl rfl

/-! ### Writing a response -/

/-- Bytes written one by one behind a window extend it. -/
theorem window_ringWrite (N : Capacity) {buf : ℕ → UInt8} {pos head len : ℕ} {bs : List UInt8}
    (hpos : pos % N.slots = (head + len) % N.slots) (hroom : len + bs.length ≤ N.slots) :
    window N.slots (ringWrite N.mask buf pos bs) head (len + bs.length)
      = window N.slots buf head len ++ bs := by
  induction bs generalizing buf pos len with
  | nil => simp [ringWrite]
  | cons b bs ih =>
      rw [List.length_cons] at hroom ⊢
      have hnext : (pos + 1) % N.slots = (head + (len + 1)) % N.slots := by
        rw [← Nat.mod_add_mod, hpos, Nat.mod_add_mod, Nat.add_assoc]
      have hlen : len + (bs.length + 1) = len + 1 + bs.length := by omega
      rw [ringWrite, N.and_mask, hpos, hlen, ih hnext (by omega), window_update (by omega),
        List.append_assoc]
      rfl

theorem length_wire (resp : OrderResponse) : resp.wire.length = 5 + sizeofOrderResponse := by
  simp only [OrderResponse.wire, List.length_cons, resp.size]
  omega

/-- The ring has room for a response. -/
def Conn.hasRoom (c : Conn) : Bool :=
  decide (sizeofOrderResponse + 5 ≤ gwRingWritable c.sendHead c.sendTail bufCapacity.mask)

/-- A response for which there is no room leaves the connection as it was. -/
theorem gwSendToConn_of_full {c : Conn} (h : c.hasRoom = false) (resp : OrderResponse) :
    gwSendToConn c resp = c := by
  rw [Conn.hasRoom, decide_eq_false_iff_not, Nat.not_le] at h
  rw [gwSendToConn, if_pos h]

/-- **A response for which there is room is put into the ring as a whole frame.** -/
theorem outgoing_gwSendToConn {c : Conn} {bs : List UInt8} (h : Outgoing c bs)
    (hroom : c.hasRoom = true) (resp : OrderResponse) :
    Outgoing (gwSendToConn c resp) (bs ++ resp.wire) := by
  have hlen := length_wire resp
  have hle := h.le
  have hlap := h.room
  rw [Conn.hasRoom, decide_eq_true_eq, gwRingWritable, h.readable_eq] at hroom
  have hmask := bufCapacity.mask_add_one
  have hfits : bs.length - c.sent.length + resp.wire.length < bufCapacity.slots := by omega
  rw [gwSendToConn, if_neg (by rw [gwRingWritable, h.readable_eq]; omega)]
  refine ⟨?_, ?_, h.head, ?_, ?_⟩
  · change c.sent.length ≤ (bs ++ resp.wire).length
    rw [List.length_append]
    omega
  · change (bs ++ resp.wire).length < c.sent.length + bufCapacity.slots
    rw [List.length_append]
    omega
  · change gwRingAdvance c.sendTail (5 + sizeofOrderResponse) bufCapacity.mask = _
    rw [h.tail, gwRingAdvance_eq, List.length_append, hlen]
  · change c.sent ++ window bufCapacity.slots
        (ringWrite bufCapacity.mask c.sendBuf c.sendTail resp.wire) c.sent.length
        ((bs ++ resp.wire).length - c.sent.length) = bs ++ resp.wire
    have hpos : c.sendTail % bufCapacity.slots =
        (c.sent.length + (bs.length - c.sent.length)) % bufCapacity.slots := by
      rw [h.tail, Nat.mod_mod]
      congr 1
      omega
    have hsplit : (bs ++ resp.wire).length - c.sent.length =
        bs.length - c.sent.length + resp.wire.length := by
      rw [List.length_append]
      omega
    rw [hsplit, window_ringWrite bufCapacity hpos hfits.le, ← List.append_assoc, h.holds]

/-! ### Sending what is in the ring -/

/-- The connection after `send` has taken `n` bytes. -/
def Conn.took (c : Conn) (n : ℕ) : Conn :=
  { c with
    sendHead := gwRingAdvance c.sendHead n bufCapacity.mask
    sent := c.sent ++ slice c.sendBuf c.sendHead n }

/-- What `send` takes are the first bytes of the ring. -/
theorem outgoing_took {c : Conn} {bs : List UInt8} (h : Outgoing c bs) {n : ℕ}
    (hn : n ≤ c.toWrite) : Outgoing (c.took n) bs ∧ (c.took n).sent.length = c.sent.length + n := by
  have hle := h.le
  have hlap := h.room
  obtain ⟨hphys, hread⟩ := le_min_iff.1 hn
  rw [h.readable_eq] at hread
  have hhead : c.sendHead < bufCapacity.slots := h.head ▸ bufCapacity.index_lt _
  have hin : c.sendHead + n ≤ bufCapacity.slots := by omega
  have hslice : slice c.sendBuf c.sendHead n =
      window bufCapacity.slots c.sendBuf c.sent.length n := by
    rw [← window_eq_slice hin, h.head, window_mod_head]
  have hlen : (c.took n).sent.length = c.sent.length + n := by
    simp [Conn.took]
  refine ⟨⟨by omega, by omega, ?_, h.tail, ?_⟩, hlen⟩
  · rw [hlen]
    change gwRingAdvance c.sendHead n bufCapacity.mask = _
    rw [h.head, gwRingAdvance_eq]
  · rw [hlen]
    change (c.sent ++ slice c.sendBuf c.sendHead n) ++ window bufCapacity.slots c.sendBuf
      (c.sent.length + n) (bs.length - (c.sent.length + n)) = bs
    have hrest : bs.length - c.sent.length = n + (bs.length - (c.sent.length + n)) := by omega
    rw [hslice, List.append_assoc, ← window_add, ← hrest, h.holds]

/-- **Sending changes nothing about what was put into the ring**, whatever `send` returns. -/
theorem outgoing_gwFlushSend {rs : List SendResult} {c c' : Conn} {bs : List UInt8}
    (h : Outgoing c bs) (hflush : gwFlushSend rs c = some c') : Outgoing c' bs := by
  induction rs generalizing c with
  | nil =>
      simp only [gwFlushSend, Option.ite_none_right_eq_some, Option.some.injEq] at hflush
      exact hflush.2 ▸ h
  | cons r rs ih =>
      unfold gwFlushSend at hflush
      split at hflush
      case isTrue => exact Option.some.inj hflush ▸ h
      case isFalse =>
        cases r with
        | sent n =>
            simp only [Option.ite_none_right_eq_some] at hflush
            exact ih (outgoing_took h hflush.1.2).1 hflush.2
        | again => exact Option.some.inj hflush ▸ h
        | error => exact Option.some.inj hflush ▸ h.congr rfl rfl rfl rfl

/-- Results that the calls of `send` in `gw_flush_send` may return one after the other: a positive
count takes no more than was offered. -/
def Answers : List SendResult → Conn → Prop
  | [], _ => True
  | r :: rs, c =>
      match r with
      | .sent n => c.sendHead ≠ c.sendTail → 1 ≤ n ∧ n ≤ c.toWrite ∧ Answers rs (c.took n)
      | .again => True
      | .error => True

/-- **`gw_flush_send` terminates**: it makes at most as many calls of `send` as there are bytes in
the ring. -/
theorem gwFlushSend_returns {rs : List SendResult} {c : Conn} {bs : List UInt8} (h : Outgoing c bs)
    (hrs : Answers rs c) (hlen : c.unsent.length ≤ rs.length) :
    ∃ c', gwFlushSend rs c = some c' := by
  induction rs generalizing c with
  | nil =>
      have hempty : c.sent.length = bs.length := by
        have := h.le
        rw [h.length_unsent, List.length_nil] at hlen
        omega
      exact ⟨c, by rw [gwFlushSend, if_pos (h.empty_iff.2 hempty)]⟩
  | cons r rs ih =>
      unfold gwFlushSend
      split
      case isTrue => exact ⟨c, rfl⟩
      case isFalse hne =>
        cases r with
        | sent n =>
            obtain ⟨hpos, hn, hrest⟩ := hrs hne
            obtain ⟨htook, hsent⟩ := outgoing_took h hn
            have hfewer : (c.took n).unsent.length ≤ rs.length := by
              rw [h.length_unsent, List.length_cons] at hlen
              rw [htook.length_unsent, hsent]
              omega
            simp only [hpos, hn, and_self, if_true]
            exact ih htook hrest hfewer
        | again => exact ⟨_, rfl⟩
        | error => exact ⟨_, rfl⟩

/-! ### Any sequence of calls -/

/-- A response is to be sent, or the ring is flushed with the given results of `send`. -/
inductive SendAct
  | send (resp : OrderResponse)
  | flush (outs : List SendResult)

/-- A connection, with the responses that were put into its ring. -/
structure Outbox where
  conn : Conn
  accepted : List OrderResponse

/-- One call. -/
def sendStep (o : Outbox) : SendAct → Option Outbox
  | .send resp =>
      some ⟨gwSendToConn o.conn resp,
        if o.conn.hasRoom then o.accepted ++ [resp] else o.accepted⟩
  | .flush outs => (gwFlushSend outs o.conn).map fun c => ⟨c, o.accepted⟩

/-- The frames of some responses, one after the other. -/
def wires (resps : List OrderResponse) : List UInt8 := (resps.map OrderResponse.wire).flatten

theorem step_outgoing {o o' : Outbox} {a : SendAct} (h : Outgoing o.conn (wires o.accepted))
    (hstep : sendStep o a = some o') : Outgoing o'.conn (wires o'.accepted) := by
  cases a with
  | send resp =>
      obtain rfl := Option.some.inj hstep
      cases hroom : o.conn.hasRoom with
      | true =>
          have hsent := outgoing_gwSendToConn h hroom resp
          simpa [wires] using hsent
      | false => simpa [gwSendToConn_of_full hroom] using h
  | flush outs =>
      obtain ⟨c, hflush, rfl⟩ := Option.map_eq_some_iff.1 hstep
      exact outgoing_gwFlushSend h hflush

/-- **Responses reach the client as whole frames.**  On a new connection and after any calls, the
bytes handed to the socket, followed by the bytes in the ring, are the frames of exactly the
responses that were not dropped, in order; flushing terminates; and a response that is dropped
leaves the connection as it was. -/
theorem responses_sent_whole (cfd : ℕ) (now : UInt64) (acts : List SendAct) :
    Throughout sendStep
        (fun o => o.conn.sent ++ o.conn.unsent = wires o.accepted ∧
          ∀ outs, Answers outs o.conn → o.conn.unsent.length ≤ outs.length →
            ∃ c, gwFlushSend outs o.conn = some c)
        ⟨.accepted cfd now, []⟩ acts ∧
      Along sendStep
        (fun o a => ∀ resp, a = .send resp → o.conn.hasRoom = false →
          sendStep o a = some o)
        ⟨.accepted cfd now, []⟩ acts := by
  refine ⟨?_, along_of_forall (fun o a resp ha hfull => ?_) _ acts⟩
  · exact throughout_of_invariant (G := fun _ _ => True) (fun _ _ _ h _ => step_outgoing h)
      (fun o h => ⟨h.sent_append_unsent, fun outs hrs hlen => gwFlushSend_returns h hrs hlen⟩)
      (outgoing_accepted cfd now) (along_of_forall (fun _ _ => trivial) _ acts)
  · subst ha
    simp [sendStep, gwSendToConn_of_full hfull, hfull]

end Gateway
