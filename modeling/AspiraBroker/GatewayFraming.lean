/-
**The frames that the gateway handles are the frames of the byte stream.**

TCP delivers a stream in pieces, and the receive ring cuts them again: a `read` ends at the last
slot of the array, a header or a payload may wrap around, and a frame may stay incomplete over any
number of reads.  None of this shows in what is handled.  The reference is a decoder of the whole
stream, which knows nothing of rings and reads; the invariant says that the frames handled so far,
followed by the decoding of what is still in the ring, decode the stream, *whatever bytes follow*.
That form is kept when bytes arrive and when a frame is taken.

Main definitions:

* `Gateway.decode` — the frames of a byte stream;
* `Gateway.Conn.unread` — the bytes in the receive ring;
* `Gateway.Framed` — the invariant of a connection;
* `Gateway.MallocOk`, `Gateway.Affords` — the steps at which `malloc` does not fail, and those that
  do not lack the memory for a frame of one connection;
* `Gateway.DecodesStream` — what is demanded of a connection.

Main results:

* `Gateway.decode_append_of_whole` — a whole frame at the front is decoded first, whatever follows;
* `Gateway.framed_store`, `Gateway.framed_round` — a `read` and a round keep the invariant;
* `Gateway.gwProcessData_returns` — the loop of `gw_process_data` ends;
* `Gateway.step_framed`, `Gateway.step_streamed` — a step of the gateway keeps the invariant of a
  connection, and leaves no whole frame behind for which there is memory;
* `Gateway.handled_eq_decode` — **in every run the frames handled are the frames received**, and the
  ring holds exactly the bytes that were received and not consumed.
-/

import Mathlib.Data.List.GetD
import AspiraBroker.GatewayThread

set_option relaxedAutoImplicit false
set_option autoImplicit false

namespace Gateway

open Ring Transition

/-! ### The wire format -/

/-- The length field at the front of a stream: four bytes in network order. -/
def lengthField (bs : List UInt8) : ℕ := beNat (bs.take 4)

/-- A whole frame of an admissible length is at the front of the stream. -/
def Whole (bs : List UInt8) : Prop :=
  5 ≤ lengthField bs ∧ lengthField bs ≤ 65536 ∧ lengthField bs ≤ bs.length

instance (bs : List UInt8) : Decidable (Whole bs) :=
  inferInstanceAs (Decidable (_ ∧ _ ∧ _))

/-- The frame at the front: the type behind the length, then the payload. -/
def firstFrame (bs : List UInt8) : Frame := ⟨bs.getD 4 0, (bs.take (lengthField bs)).drop 5⟩

/-- The frames of a byte stream, up to the first one that is incomplete or whose length is below
`5` or above `65536`. -/
def decode (bs : List UInt8) : List Frame :=
  if _h : Whole bs then firstFrame bs :: decode (bs.drop (lengthField bs)) else []
termination_by bs.length
decreasing_by
  obtain ⟨hmin, -, hall⟩ := _h
  rw [List.length_drop]
  omega

theorem not_whole_nil : ¬ Whole [] := by decide

theorem decode_of_whole {bs : List UInt8} (h : Whole bs) :
    decode bs = firstFrame bs :: decode (bs.drop (lengthField bs)) := by
  rw [decode, dif_pos h]

theorem decode_of_not_whole {bs : List UInt8} (h : ¬ Whole bs) : decode bs = [] := by
  rw [decode, dif_neg h]

/-- The length field does not depend on what follows it. -/
theorem lengthField_append {bs : List UInt8} (h : 4 ≤ bs.length) (more : List UInt8) :
    lengthField (bs ++ more) = lengthField bs := by
  rw [lengthField, List.take_append_of_le_length h, lengthField]

/-- **A whole frame at the front is decoded first, whatever follows.** -/
theorem decode_append_of_whole {bs : List UInt8} (h : Whole bs) (more : List UInt8) :
    decode (bs ++ more) = firstFrame bs :: decode (bs.drop (lengthField bs) ++ more) := by
  obtain ⟨hmin, hmax, hall⟩ := h
  have hlen := lengthField_append (by omega : 4 ≤ bs.length) more
  have hwhole : Whole (bs ++ more) := by
    refine ⟨by omega, by omega, ?_⟩
    rw [List.length_append]
    omega
  have hfirst : firstFrame (bs ++ more) = firstFrame bs := by
    rw [firstFrame, hlen, List.take_append_of_le_length hall,
      List.getD_append bs more 0 4 (by omega), firstFrame]
  rw [decode_of_whole hwhole, hfirst, hlen, List.drop_append_of_le_length hall]

/-! ### The invariant of a connection -/

/-- The bytes that a list of frames takes up on the wire. -/
def consumed (fs : List Frame) : ℕ := (fs.map Frame.size).sum

@[simp] theorem consumed_nil : consumed [] = 0 := rfl

@[simp] theorem consumed_append_singleton (fs : List Frame) (f : Frame) :
    consumed (fs ++ [f]) = consumed fs + f.size := by
  simp [consumed]

/-- The bytes in the receive ring. -/
def Conn.unread (c : Conn) : List UInt8 := window bufCapacity.slots c.recvBuf c.recvHead c.readable

/-- The bytes that were received and belong to no frame handled so far. -/
def Conn.pending (c : Conn) : List UInt8 := c.received.drop (consumed c.handled)

/-- The cursors are the counts of bytes received and consumed, the ring holds the bytes between
them, and decoding the stream yields the frames handled and then those of the pending bytes. -/
structure Framed (c : Conn) : Prop where
  consumed_le : consumed c.handled ≤ c.received.length
  room : c.received.length < consumed c.handled + bufCapacity.slots
  head : c.recvHead = consumed c.handled % bufCapacity.slots
  tail : c.recvTail = c.received.length % bufCapacity.slots
  holds : window bufCapacity.slots c.recvBuf (consumed c.handled)
    (c.received.length - consumed c.handled) = c.pending
  frames : ∀ more, decode (c.received ++ more) = c.handled ++ decode (c.pending ++ more)

theorem framed_blank (fd : ℤ) : Framed (.blank fd) where
  consumed_le := le_rfl
  room := by simpa [Conn.blank] using bufCapacity.slots_pos
  head := by simp [Conn.blank]
  tail := by simp [Conn.blank]
  holds := rfl
  frames _ := rfl

/-- The invariant reads the receive side only. -/
theorem Framed.congr {c c' : Conn} (hc : Framed c) (h : SameStream c c') : Framed c' := by
  obtain ⟨hbuf, hhead, htail, hreceived, hhandled, -⟩ := h
  constructor <;> simp only [Conn.pending, hbuf, hhead, htail, hreceived, hhandled]
  exacts [hc.consumed_le, hc.room, hc.head, hc.tail, hc.holds, hc.frames]

namespace Framed

variable {c : Conn} (hc : Framed c)

include hc

theorem readable_eq : c.readable = c.received.length - consumed c.handled := by
  rw [Conn.readable, hc.head, hc.tail]
  exact gwRingReadable_eq bufCapacity hc.consumed_le hc.room

theorem readable_eq_length : c.readable = c.pending.length := by
  rw [hc.readable_eq, Conn.pending, List.length_drop]

/-- **The ring holds exactly the bytes that were received and not consumed.** -/
theorem unread_eq : c.unread = c.pending := by
  rw [Conn.unread, hc.readable_eq, hc.head, window_mod_head]
  exact hc.holds

theorem readable_lt : c.readable < bufCapacity.slots := by
  have := hc.room
  have := hc.readable_eq
  have := bufCapacity.slots_pos
  omega

/-- Peeking into the ring is reading the pending bytes. -/
theorem peek_eq {off len : ℕ} (h : off + len ≤ c.readable) :
    gwRingPeek c.recvBuf c.recvHead off len bufCapacity.mask
      = (c.pending.take (off + len)).drop off := by
  have hlt := hc.readable_lt
  rw [gwRingPeek_eq_window bufCapacity _ _ _ (by omega), ← hc.unread_eq, Conn.unread,
    take_window h, drop_window (Nat.le_add_right off len), Nat.add_sub_cancel_left]

theorem msgLen_eq (h : 5 ≤ c.readable) : c.msgLen = lengthField c.pending := by
  rw [Conn.msgLen, hc.peek_eq (by omega), lengthField, List.drop_zero]

/-- A round finds a frame exactly when the pending bytes start with a whole one. -/
theorem whole_iff : Whole c.pending ↔ c.Complete := by
  rw [Whole, Conn.Complete, ← hc.readable_eq_length]
  constructor
  · rintro ⟨hmin, hmax, hall⟩
    rw [hc.msgLen_eq (hmin.trans hall)]
    exact ⟨hmin.trans hall, hmin, hmax, hall⟩
  · rintro ⟨hfive, hmin, hmax, hall⟩
    rw [← hc.msgLen_eq hfive]
    exact ⟨hmin, hmax, hall⟩

/-- The frame at the front of the ring is the first frame of the pending bytes. -/
theorem front_eq (h : Whole c.pending) : c.front = firstFrame c.pending := by
  obtain ⟨hfive, hmin, hmax, hall⟩ := hc.whole_iff.1 h
  have hpayload : 5 + (c.msgLen - 5) = c.msgLen := by omega
  rw [Conn.front, firstFrame, hc.peek_eq (by omega), hc.peek_eq (by omega), hpayload,
    hc.msgLen_eq hfive]
  congr 1
  -- the type is the only byte of the piece from offset 4 to 5
  have hlen := hc.readable_eq_length
  rw [List.drop_take, List.getD_eq_getElem?_getD, List.headD_eq_head?_getD, List.head?_take,
    if_neg (by decide), List.head?_drop]

theorem size_front (h : Whole c.pending) : c.front.size = c.msgLen := by
  obtain ⟨hfive, hmin, hmax, hall⟩ := hc.whole_iff.1 h
  have hlen := hc.readable_eq_length
  change 5 + (gwRingPeek c.recvBuf c.recvHead 5 (c.msgLen - 5) bufCapacity.mask).length = _
  rw [hc.peek_eq (by omega), List.length_drop, List.length_take]
  omega

end Framed

/-! ### Reads and rounds -/

/-- What `read` may deliver fits into the ring behind the bytes that are there. -/
theorem Framed.room_for {c : Conn} (hc : Framed c) {k : ℕ} (hroom : k ≤ c.readRoom) :
    c.received.length - consumed c.handled + k < bufCapacity.slots ∧
      c.recvTail + k ≤ bufCapacity.slots := by
  obtain ⟨hphys, hfree⟩ := le_min_iff.1 hroom
  have hwritable : k ≤ bufCapacity.mask - c.readable := hfree
  have hmask := bufCapacity.mask_add_one
  have hlt := hc.readable_lt
  have htail : c.recvTail < bufCapacity.slots := hc.tail ▸ bufCapacity.index_lt _
  rw [← slots_bufCapacity] at hphys
  rw [← hc.readable_eq]
  omega

/-- The ring holds the bytes that `read` delivered behind those that were there before. -/
theorem Framed.window_store {c : Conn} (hc : Framed c) {bytes : List UInt8}
    (hroom : bytes.length ≤ c.readRoom) :
    window bufCapacity.slots (fill c.recvBuf c.recvTail bytes) (consumed c.handled)
        (c.received.length - consumed c.handled + bytes.length) = c.pending ++ bytes := by
  obtain ⟨hfree, hphys⟩ := hc.room_for hroom
  have hcounter : consumed c.handled + (c.received.length - consumed c.handled)
      = c.received.length := Nat.add_sub_cancel' hc.consumed_le
  have htail : c.recvTail = (consumed c.handled
      + (c.received.length - consumed c.handled)) % bufCapacity.slots := by
    rw [hcounter]
    exact hc.tail
  rw [htail] at hphys ⊢
  rw [window_fill hfree.le hphys, hc.holds]

/-- What `read` delivered is pending behind what was pending before. -/
theorem Framed.pending_store {c : Conn} (hc : Framed c) (bytes : List UInt8) (now : UInt64) :
    (c.store bytes now).pending = c.pending ++ bytes :=
  List.drop_append_of_le_length hc.consumed_le

/-- **A `read` keeps the invariant**: it fits behind the bytes in the ring and overwrites none. -/
theorem framed_store {c : Conn} {bytes : List UInt8} (hc : Framed c)
    (hroom : bytes.length ≤ c.readRoom) (now : UInt64) : Framed (c.store bytes now) := by
  have hle := hc.consumed_le
  obtain ⟨hfree, -⟩ := hc.room_for hroom
  have hpending := hc.pending_store bytes now
  have hlen : (c.store bytes now).received.length = c.received.length + bytes.length :=
    List.length_append
  constructor
  · rw [hlen]
    exact hle.trans (Nat.le_add_right _ _)
  · rw [hlen]
    change _ < consumed c.handled + _
    omega
  · exact hc.head
  · rw [hlen, ← gwRingAdvance_eq, ← hc.tail]
    rfl
  · rw [hlen, hpending, ← hc.window_store hroom, ← Nat.sub_add_comm hle]
    rfl
  · intro more
    rw [hpending, List.append_assoc]
    change decode (c.received ++ bytes ++ more) = _
    rw [List.append_assoc]
    exact hc.frames (bytes ++ more)

/-- What handling a frame leaves alone. -/
theorem Handled.recv_eq {env : FrameEnv} {g g' : Ctx} {c c' : Conn} {f : Frame}
    (h : Handled env g c f g' c') :
    c'.recvBuf = c.recvBuf ∧ c'.recvTail = c.recvTail ∧ c'.received = c.received := by
  cases h with
  | auth => exact ⟨rfl, rfl, rfl⟩
  | other hsame => exact ⟨hsame.recvBuf, hsame.recvTail, hsame.received⟩

/-- A round receives nothing. -/
theorem received_of_round {env : FrameEnv} {g g' : Ctx} {c c' : Conn} {goesOn : Bool}
    (h : Round env g c g' c' goesOn) : c'.received = c.received := by
  cases h with
  | short | badLength | incomplete | noMemory => rfl
  | frame hfront hhandled => exact hhandled.recv_eq.2.2

/-- Taking a whole frame off the front keeps the invariant. -/
theorem framed_take {c c' : Conn} (hc : Framed c) (hwhole : Whole c.pending)
    (hbuf : c'.recvBuf = c.recvBuf) (htail : c'.recvTail = c.recvTail)
    (hreceived : c'.received = c.received)
    (hhead : c'.recvHead = gwRingAdvance c.recvHead c.msgLen bufCapacity.mask)
    (hhandled : c'.handled = c.handled ++ [c.front]) : Framed c' := by
  obtain ⟨hfive, hmin, hmax, hall⟩ := hc.whole_iff.1 hwhole
  have hle := hc.consumed_le
  have hlap := hc.room
  have hreadable := hc.readable_eq
  have hconsumed : consumed c'.handled = consumed c.handled + c.msgLen := by
    rw [hhandled, consumed_append_singleton, hc.size_front hwhole]
  have hpending : c'.pending = c.pending.drop c.msgLen := by
    rw [Conn.pending, hreceived, hconsumed, Conn.pending, List.drop_drop]
  constructor
  · rw [hconsumed, hreceived]
    omega
  · rw [hconsumed, hreceived]
    omega
  · rw [hhead, hc.head, gwRingAdvance_eq, hconsumed]
  · rw [htail, hc.tail, hreceived]
  · rw [hbuf, hreceived, hconsumed, hpending, ← hc.holds, drop_window (by omega), Nat.sub_sub]
  · intro more
    rw [hreceived, hc.frames, decode_append_of_whole hwhole, ← hc.front_eq hwhole,
      ← hc.msgLen_eq hfive, hhandled, hpending, List.append_assoc, List.singleton_append]

/-- **A round keeps the invariant**, a round that goes on has taken at least five bytes off the
ring, and one that ends the loop leaves no whole frame behind, unless memory ran out for it. -/
theorem framed_round {env : FrameEnv} {g g' : Ctx} {c c' : Conn} {goesOn : Bool} (hc : Framed c)
    (h : Round env g c g' c' goesOn) :
    Framed c' ∧ (goesOn = true → c'.readable + 5 ≤ c.readable) ∧
      (goesOn = false → (c.Complete → (gwHandle env g c c.front).isSome = true) →
        ¬ Whole c'.pending) := by
  cases h with
  | short hshort =>
      refine ⟨hc, nofun, fun _ _ hwhole => ?_⟩
      have := (hc.whole_iff.1 hwhole).1
      omega
  | badLength hfive hbad =>
      refine ⟨hc.congr (sendOnly_closing c).stream, nofun, fun _ _ hwhole => ?_⟩
      obtain ⟨-, hmin, hmax, -⟩ := hc.whole_iff.1 hwhole
      omega
  | incomplete hmin hshort =>
      refine ⟨hc, nofun, fun _ _ hwhole => ?_⟩
      have := (hc.whole_iff.1 hwhole).2.2.2
      omega
  | noMemory hfront hhandle =>
      refine ⟨hc.congr (sendOnly_closing c).stream, nofun, fun _ hsome => ?_⟩
      have := hsome hfront
      rw [hhandle] at this
      cases this
  | @frame _ c₁ hfront hhandled =>
      have hwhole := hc.whole_iff.2 hfront
      obtain ⟨-, hmin, -, hall⟩ := hfront
      obtain ⟨hbuf, htail, hreceived⟩ := hhandled.recv_eq
      have hc' : Framed { c₁ with
          recvHead := gwRingAdvance c.recvHead c.msgLen bufCapacity.mask
          handled := c.handled ++ [c.front] } :=
        framed_take hc hwhole hbuf htail hreceived rfl rfl
      refine ⟨hc', fun _ => ?_, nofun⟩
      have hreadable := hc.readable_eq
      rw [hc'.readable_eq, hreadable]
      simp only [hreceived, consumed_append_singleton, hc.size_front hwhole]
      omega

/-! ### Whole runs -/

/-- The steps at which `malloc` does not fail. -/
def MallocOk (_ : Sys) : Act → Prop
  | .frame env => env.mallocOk = true
  | _ => True

instance (s : Sys) : ∀ a, Decidable (MallocOk s a)
  | .frame env => inferInstanceAs (Decidable (env.mallocOk = true))
  | .turn .. | .poll _ | .dispatch | .accept _ | .read _ | .finish .. | .idleScan _ =>
      isTrue trivial

/-- The step does not lack the memory for a frame of the connection in slot `i`. -/
def Affords (i : ℕ) (s : Sys) : Act → Prop
  | .frame env => s.pc.processing = some i → (s.conns i).Complete →
      (gwHandle env s.ctx (s.conns i) (s.conns i).front).isSome = true
  | _ => True

theorem MallocOk.affords {s : Sys} {a : Act} (h : MallocOk s a) (i : ℕ) : Affords i s a := by
  cases a with
  | frame env => exact fun _ _ => gwHandle_isSome (fun _ => h) _ _
  | turn | poll | dispatch | accept | read | finish | idleScan => trivial

/-- The connection in slot `i` satisfies its invariant, and only `gw_process_data` at work on it
leaves whole frames in its ring. -/
structure Streamed (s : Sys) (i : ℕ) : Prop where
  framed : Framed (s.conns i)
  drained : s.pc.processing ≠ some i → ¬ Whole (s.conns i).pending

theorem framed_accepted (cfd : ℕ) (now : UInt64) : Framed (.accepted cfd now) :=
  (framed_blank cfd).congr ⟨rfl, rfl, rfl, rfl, rfl, rfl⟩

theorem streamed_of_accepted {s : Sys} {i cfd : ℕ} {now : UInt64}
    (h : s.conns i = .accepted cfd now) : Streamed s i := by
  refine ⟨h ▸ framed_accepted cfd now, fun _ => ?_⟩
  rw [h]
  exact not_whole_nil

theorem streamed_btGatewayCreate (maxConns i : ℕ) : Streamed (btGatewayCreate maxConns) i :=
  ⟨framed_blank _, fun _ => not_whole_nil⟩

theorem SameStream.pending_eq {c c' : Conn} (h : SameStream c c') : c'.pending = c.pending := by
  rw [Conn.pending, h.received, h.handled, Conn.pending]

/-- Outside `gw_process_data` the ring holds no whole frame. -/
theorem Streamed.not_whole {s : Sys} {i : ℕ} (hs : Streamed s i) (hpc : s.pc.processing = none) :
    ¬ Whole (s.conns i).pending := by
  refine hs.drained ?_
  rw [hpc]
  nofun

section Step

variable {s s' : Sys} {a : Act} {i : ℕ}

/-- **A step keeps the invariant of a connection**, whether there is memory or not. -/
theorem step_framed (hs : Framed (s.conns i)) (h : step s a = some s') : Framed (s'.conns i) := by
  have hframed : ∀ {k : ℕ} {c : Conn}, (Framed (s.conns k) → Framed c) →
      Framed (Function.update s.conns k c i) := fun hkeep =>
    rel_update (r := fun c c' => Framed c → Framed c') (fun _ => id) hkeep i hs
  cases stream_of_step h with
  | quiet hpc hpc' hctx hconns => exact hs.congr (hconns i)
  | @opened _ _ k cfd now hpc hpc' hctx hconns =>
      rw [hconns]
      exact hframed fun _ => framed_accepted cfd now
  | @stored k flags rest bytes now hpc hpos hroom =>
      exact hframed fun hk => framed_store hk hroom now
  | @round k flags rest env hpc =>
      exact hframed fun hk => (framed_round hk (round_of_gwProcessRound env s.ctx _)).1

/-- **A step keeps the stream of a connection.** -/
theorem step_streamed (hs : Streamed s i) (hafford : Affords i s a) (h : step s a = some s') :
    Streamed s' i := by
  refine ⟨step_framed hs.framed h, ?_⟩
  cases stream_of_step h with
  | quiet hpc hpc' hctx hconns =>
      rw [(hconns i).pending_eq]
      exact fun _ => hs.not_whole hpc
  | @opened _ _ k cfd now hpc hpc' hctx hconns =>
      rw [hconns]
      by_cases hik : i = k
      · rw [hik, Function.update_self]
        exact fun _ => not_whole_nil
      · rw [Function.update_of_ne hik]
        exact fun _ => hs.not_whole hpc
  | @stored k flags rest bytes now hpc hpos hroom =>
      intro hi
      -- the stored bytes may complete a frame, but only on the slot now processed
      have hik : i ≠ k := fun h => hi (h ▸ rfl)
      change ¬ Whole (Function.update s.conns k _ i).pending
      rw [Function.update_of_ne hik]
      exact hs.not_whole hpc
  | @round k flags rest env hpc =>
      intro hi
      change ¬ Whole (Function.update s.conns k _ i).pending
      by_cases hik : i = k
      · subst hik
        obtain ⟨-, -, hdrained⟩ :=
          framed_round hs.framed (round_of_gwProcessRound env s.ctx (s.conns i))
        rw [Function.update_self]
        refine hdrained ?_ (hafford (by rw [hpc]; rfl))
        -- a loop that goes on is still at work on the slot
        by_contra hon
        exact hi (by simp [frameStep, Sys.put, Bool.eq_true_of_not_eq_false hon, Pc.processing])
      · rw [Function.update_of_ne hik]
        refine hs.drained ?_
        rw [hpc]
        exact fun h => hik (Option.some.inj h).symm

end Step

/-! ### The end of the loop -/

/-- From a state in `gw_process_data` the loop ends, whatever the environment does, within as many
rounds as the ring has whole headers, and one. -/
theorem gwProcessData_returns {s : Sys} {i : ℕ} (hs : Framed (s.conns i))
    (hpc : s.pc.processing = some i) {envs : List FrameEnv}
    (henvs : (s.conns i).readable / 5 < envs.length) :
    ∃ k ≤ envs.length, ∃ t, run step s ((envs.take k).map .frame) = some t ∧
      t.pc.processing = none := by
  induction envs generalizing s with
  | nil => simp at henvs
  | cons env envs ih =>
      obtain ⟨flags, rest, hpc⟩ : ∃ flags rest, s.pc = .process i flags rest := by
        cases h : s.pc with
        | process j flags rest =>
            rw [h] at hpc
            exact ⟨flags, rest, by rw [Option.some.inj hpc]⟩
        | _ =>
            rw [h] at hpc
            cases hpc
      have hstep : step s (.frame env) = some (frameStep s i flags rest env) := by
        simp only [step, hpc]
      obtain ⟨-, hless, -⟩ := framed_round hs (round_of_gwProcessRound env s.ctx (s.conns i))
      cases hon : (gwProcessRound env s.ctx (s.conns i)).2.2 with
      | false =>
          refine ⟨1, by simp, _, run_cons_eq hstep [], ?_⟩
          simp [frameStep, Sys.put, hon, Pc.processing]
      | true =>
          -- the ring has at least five bytes less, so one whole header less
          have hpc' : (frameStep s i flags rest env).pc.processing = some i := by
            simp [frameStep, Sys.put, hon, Pc.processing]
          have hreadable := hless hon
          have hself : (frameStep s i flags rest env).conns i
              = (gwProcessRound env s.ctx (s.conns i)).2.1 := Function.update_self _ _ _
          obtain ⟨k, hk, t, hrun, ht⟩ :=
            ih (step_framed hs hstep) hpc' (by
              rw [hself]
              rw [List.length_cons] at henvs
              omega)
          refine ⟨k + 1, by simpa using hk, t, ?_, ht⟩
          rw [List.take_succ_cons, List.map_cons, run_cons_eq hstep, hrun]

/-! ### The frames handled are the frames received -/

/-- What is demanded of the connection in slot `i`: while `gw_process_data` is at work on it the
frames handled are a part of those of the bytes received, and otherwise all of them; the ring holds
exactly the bytes that were received and not consumed; and `gw_process_data` returns, whatever the
environment does. -/
structure DecodesStream (s : Sys) (i : ℕ) : Prop where
  part : (s.conns i).handled <+: decode (s.conns i).received
  all : s.pc.processing ≠ some i → (s.conns i).handled = decode (s.conns i).received
  held : (s.conns i).unread = (s.conns i).received.drop (consumed (s.conns i).handled)
  returns : s.pc.processing = some i → ∀ envs : List FrameEnv,
    (s.conns i).readable / 5 < envs.length →
      ∃ k ≤ envs.length, ∃ t, run step s ((envs.take k).map .frame) = some t ∧
        t.pc.processing = none

theorem Streamed.decodesStream {s : Sys} {i : ℕ} (hs : Streamed s i) : DecodesStream s i := by
  have hframed := hs.framed
  have hframes : decode (s.conns i).received
      = (s.conns i).handled ++ decode (s.conns i).pending := by
    simpa using hframed.frames []
  refine ⟨⟨_, hframes.symm⟩, fun hidle => ?_, hframed.unread_eq, fun hpc envs => ?_⟩
  · rw [hframes, decode_of_not_whole (hs.drained hidle), List.append_nil]
  · exact gwProcessData_returns hframed hpc

/-- **In every run the frames handled are the frames received**, however the streams of the
connections arrive, as long as `malloc` does not fail. -/
theorem handled_eq_decode {maxConns : ℕ} {as : List Act}
    (hmalloc : Along step MallocOk (btGatewayCreate maxConns) as) :
    Throughout step (fun s => ∀ i, DecodesStream s i) (btGatewayCreate maxConns) as :=
  throughout_of_invariant (I := fun s => ∀ i, Streamed s i)
    (fun _ _ _ hs hg h i => step_streamed (hs i) (hg.affords i) h)
    (fun _ hs i => (hs i).decodesStream) (streamed_btGatewayCreate maxConns) hmalloc

/-- A frame of seven bytes that arrives in two pieces, the second with the start of the next one. -/
def splitRun : List Act :=
  acceptTurn 3 ++ readTurn 0 ++
    [.read (.data [0, 0, 0] 0), .frame .calm, .read (.data [7, ascii 'A', 1, 2, 0] 0), .frame .calm,
      .frame .calm] ++ endTurn

theorem handled_eq_decode_split :
    (run step (btGatewayCreate 1) splitRun).map (fun s => (s.conns 0).handled)
        = some [⟨ascii 'A', [1, 2]⟩] ∧
      Along step MallocOk (btGatewayCreate 1) splitRun ∧
      Throughout step (fun s => ∀ i, DecodesStream s i) (btGatewayCreate 1) splitRun :=
  ⟨by decide, by decide, handled_eq_decode (by decide)⟩

end Gateway
