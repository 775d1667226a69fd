/-
**Orders on their way to the order management.**

`gw_push_order` lets an order pass when its connection is within its rate and its request id has not
been seen.  The ids that were seen are kept in a table of `GW_IDEM_RING_SIZE` slots, shared by all
connections and indexed by the low bits of the id: the slot of an id holds the last id of that slot
that came through, and an order is a duplicate when it finds its own id there.  The slot is written
before the order is pushed to the queue, and whether the push succeeded is not looked at.

Main definitions:

* `Gateway.idemSlot` — the slot of a request id;
* `Gateway.WithinRate`, `Gateway.Passes` — the tests of `gw_push_order`;
* `Gateway.Orders`, `Gateway.OrderAct`, `Gateway.orderStep` — runs of `gw_push_order` over any
  number of connections;
* `Gateway.Drops` — a further order with a given id is not enqueued;
* `Gateway.Evicts` — an order overwrites the slot of another id.

Main results:

* `Gateway.idemRing_gwPushOrder`, `Gateway.enqueued_gwPushOrder` — what a push does to the table and
  to the queue;
* `Gateway.drops_iff` — **an id is remembered exactly as long as its slot holds it**;
* `Gateway.retransmits_dropped_iff` — **retransmitted orders are dropped exactly as long as no other
  id of the same slot comes through**;
* `Gateway.failed_push_leaves_traces` — a push to a full queue always leaves the gateway changed,
  and an order with an id can then not be sent again.
-/

import AspiraBroker.Gateway
import AspiraBroker.TransitionRuns

set_option relaxedAutoImplicit false
set_option autoImplicit false

namespace Gateway

open Transition

universe u

/-! ### What a push does -/

/-- The slot of a request id in the idempotency ring. -/
def idemSlot (id : UInt64) : ℕ := id.toNat &&& (gwIdemRingSize - 1)

/-- The connection is within its rate at the time of the push. -/
def WithinRate (env : FrameEnv) (c : Conn) : Prop :=
  (c.rateWindow env.now).rateCount < btCfgRateLimitRps

/-- The order is pushed to the queue: the connection is within its rate and the id is zero or not
the one in its slot. -/
def Passes (env : FrameEnv) (g : Ctx) (c : Conn) (req : OrderRequest) : Prop :=
  WithinRate env c ∧ (req.requestId ≠ 0 → g.idemRing (idemSlot req.requestId) ≠ req.requestId)

instance (env : FrameEnv) (c : Conn) : Decidable (WithinRate env c) :=
  inferInstanceAs (Decidable (_ < _))

instance (env : FrameEnv) (g : Ctx) (c : Conn) (req : OrderRequest) :
    Decidable (Passes env g c req) :=
  inferInstanceAs (Decidable (_ ∧ _))

section Push

variable (env : FrameEnv) (g : Ctx) (c : Conn) (req : OrderRequest)

@[simp] theorem idemRing_push (msg : OmsMsg) : (g.push env c msg).idemRing = g.idemRing := by
  unfold Ctx.push
  split <;> rfl

@[simp] theorem ordersReceived_push (msg : OmsMsg) :
    (g.push env c msg).ordersReceived = g.ordersReceived := by
  unfold Ctx.push
  split <;> rfl

theorem enqueued_push (msg : OmsMsg) :
    (g.push env c msg).enqueued =
      g.enqueued ++ if env.pushOk = true then [⟨msg, c.handled⟩] else [] := by
  unfold Ctx.push
  split
  · rfl
  · exact (List.append_nil _).symm

/-- An order that does not pass changes nothing but the rate window. -/
theorem gwPushOrder_of_not_passes (h : ¬ Passes env g c req) :
    gwPushOrder env g c req = (g, c.rateWindow env.now) := by
  simp only [Passes, WithinRate, idemSlot, not_and, not_forall, not_not] at h
  simp only [gwPushOrder]
  split
  case isTrue hrate =>
    obtain ⟨hid, hseen⟩ := h hrate
    rw [if_pos hid, if_pos hseen]
  case isFalse => rfl

/-- An order that passes takes its slot, if it has an id, and is accepted. -/
theorem gwPushOrder_of_passes (h : Passes env g c req) :
    gwPushOrder env g c req =
      gwAcceptOrder env
        (if req.requestId ≠ 0 then
          { g with idemRing :=
              Function.update g.idemRing (idemSlot req.requestId) req.requestId }
        else g)
        (c.rateWindow env.now) req := by
  obtain ⟨hrate, hnew⟩ := h
  unfold WithinRate at hrate
  simp only [gwPushOrder]
  rw [if_pos hrate]
  split
  case isTrue hid =>
    have hother := hnew hid
    unfold idemSlot at hother ⊢
    rw [if_neg hother]
  case isFalse => rfl

/-- What a push does to the connection: its rate window moves on, and an order that passes is
counted in it. -/
theorem conn_gwPushOrder :
    (gwPushOrder env g c req).2 =
      if Passes env g c req then
        { c.rateWindow env.now with rateCount := (c.rateWindow env.now).rateCount + 1 }
      else c.rateWindow env.now := by
  split
  case isTrue h => rw [gwPushOrder_of_passes env g c req h, gwAcceptOrder]
  case isFalse h => rw [gwPushOrder_of_not_passes env g c req h]

/-- **What a push does to the table**: an order with an id that is within its rate leaves its id in
its slot. -/
theorem idemRing_gwPushOrder :
    (gwPushOrder env g c req).1.idemRing =
      if WithinRate env c ∧ req.requestId ≠ 0 then
        Function.update g.idemRing (idemSlot req.requestId) req.requestId
      else g.idemRing := by
  by_cases h : Passes env g c req
  · rw [gwPushOrder_of_passes env g c req h, gwAcceptOrder]
    by_cases hid : req.requestId = 0
    · simp [hid]
    · simp [hid, h.1]
  · rw [gwPushOrder_of_not_passes env g c req h]
    split
    case isTrue hin =>
      -- a duplicate finds its id in the slot
      have hseen : g.idemRing (idemSlot req.requestId) = req.requestId := by
        by_contra hnew
        exact h ⟨hin.1, fun _ => hnew⟩
      exact (Function.update_eq_self_iff.2 hseen.symm).symm
    case isFalse => rfl

/-- **What a push does to the queue.** -/
theorem enqueued_gwPushOrder :
    (gwPushOrder env g c req).1.enqueued =
      g.enqueued ++
        if Passes env g c req ∧ env.pushOk = true then [⟨.order req, c.handled⟩] else [] := by
  by_cases h : Passes env g c req
  · have hhandled := (sameStream_rateWindow c env.now).handled
    rw [gwPushOrder_of_passes env g c req h, gwAcceptOrder]
    simp only [enqueued_push, h, true_and, hhandled]
    split <;> rfl
  · rw [gwPushOrder_of_not_passes env g c req h]
    simp [h]

/-- An order that passes is counted. -/
theorem ordersReceived_gwPushOrder (h : Passes env g c req) :
    (gwPushOrder env g c req).1.ordersReceived = g.ordersReceived + 1 := by
  rw [gwPushOrder_of_passes env g c req h, gwAcceptOrder]
  simp only [ordersReceived_push]
  split <;> rfl

end Push

/-! ### Runs over any number of connections -/

variable {ι : Type u}

/-- The gateway and its connections. -/
structure Orders (ι : Type u) where
  ctx : Ctx
  conns : ι → Conn

/-- An order arrives on a connection, or a cancel, or something else happens to the connections. -/
inductive OrderAct (ι : Type u)
  | push (i : ι) (env : FrameEnv) (req : OrderRequest)
  | cancel (i : ι) (env : FrameEnv) (req : CancelRequest)
  | other (conns : ι → Conn)

/-- One step of a run. -/
def orderStep [DecidableEq ι] (s : Orders ι) : OrderAct ι → Option (Orders ι)
  | .push i env req =>
      let r := gwPushOrder env s.ctx (s.conns i) req
      some ⟨r.1, Function.update s.conns i r.2⟩
  | .cancel i env req => some { s with ctx := s.ctx.push env (s.conns i) (.cancel req) }
  | .other conns => some { s with conns }

/-- A further order with the id `r` is not enqueued, whatever the connection it comes on and
whenever it comes. -/
def Drops (g : Ctx) (r : UInt64) : Prop :=
  ∀ (env : FrameEnv) (c : Conn) (req : OrderRequest), req.requestId = r →
    (gwPushOrder env g c req).1.enqueued = g.enqueued

/-- The order takes the slot of `r` for another id. -/
def Evicts (r : UInt64) (env : FrameEnv) (c : Conn) (req : OrderRequest) : Prop :=
  WithinRate env c ∧ req.requestId ≠ 0 ∧ req.requestId ≠ r ∧ idemSlot req.requestId = idemSlot r

/-- **An id is remembered exactly as long as its slot holds it.** -/
theorem drops_iff {g : Ctx} {r : UInt64} (hr : r ≠ 0) :
    Drops g r ↔ g.idemRing (idemSlot r) = r := by
  constructor
  · intro h
    by_contra hother
    -- the order would pass on a fresh connection, with room in the queue
    let req : OrderRequest := { OrderRequest.blank 0 with requestId := r }
    have hpass : Passes .calm g (.blank 0) req :=
      ⟨show (0 : ℕ) < btCfgRateLimitRps by decide, fun _ => hother⟩
    have hnot := h .calm (.blank 0) req rfl
    rw [enqueued_gwPushOrder, if_pos ⟨hpass, rfl⟩] at hnot
    simp at hnot
  · rintro hseen env c req rfl
    have hnot : ¬ Passes env g c req := fun h => h.2 hr hseen
    simp [enqueued_gwPushOrder, hnot]

/-! ### Retransmitted orders -/

/-- The number of request ids that are to be remembered. -/
def idemWindow : ℕ := 4096

/-- The message is an order with another id than `r`. -/
def Enqueued.isOther (r : UInt64) (e : Enqueued) : Bool :=
  match e.msg with
  | .order req => decide (req.requestId ≠ r)
  | .cancel _ => false

/-- The number of orders with other ids than `r` that were enqueued after the first `n`
messages. -/
def othersSince (r : UInt64) (n : ℕ) (g : Ctx) : ℕ :=
  (g.enqueued.drop n).countP (Enqueued.isOther r)

/-- As long as fewer than `idemWindow` orders with other ids have been enqueued, the one that comes
included, no order takes the slot of `r` for another id. -/
def KeepsSlot (r : UInt64) (n : ℕ) (s : Orders ι) : OrderAct ι → Prop
  | .push i env req =>
      othersSince r n s.ctx + (if env.pushOk then 1 else 0) < idemWindow →
        ¬ Evicts r env (s.conns i) req
  | .cancel .. | .other _ => True

instance (r : UInt64) (env : FrameEnv) (c : Conn) (req : OrderRequest) :
    Decidable (Evicts r env c req) :=
  inferInstanceAs (Decidable (_ ∧ _ ∧ _ ∧ _))

instance (r : UInt64) (n : ℕ) (s : Orders ι) : ∀ a : OrderAct ι, Decidable (KeepsSlot r n s a)
  | .push _ _ _ => inferInstanceAs (Decidable (_ → _))
  | .cancel .. | .other _ => isTrue trivial

/-- What a push adds to the orders with other ids. -/
theorem othersSince_gwPushOrder {r : UInt64} {n : ℕ} {g : Ctx} (hn : n ≤ g.enqueued.length)
    (env : FrameEnv) (c : Conn) (req : OrderRequest) :
    othersSince r n (gwPushOrder env g c req).1 =
      othersSince r n g +
        if (Passes env g c req ∧ env.pushOk = true) ∧ req.requestId ≠ r then 1 else 0 := by
  rw [othersSince, enqueued_gwPushOrder, List.drop_append_of_le_length hn, List.countP_append]
  congr 1
  by_cases h : Passes env g c req ∧ env.pushOk = true
  · by_cases hr : req.requestId = r
    · simp [h, hr, Enqueued.isOther]
    · simp [h, hr, Enqueued.isOther]
  · simp [h]

/-- A cancel is no order. -/
theorem othersSince_push_cancel {r : UInt64} {n : ℕ} {g : Ctx} (hn : n ≤ g.enqueued.length)
    (env : FrameEnv) (c : Conn) (req : CancelRequest) :
    othersSince r n (g.push env c (.cancel req)) = othersSince r n g := by
  rw [othersSince, enqueued_push, List.drop_append_of_le_length hn, List.countP_append, othersSince]
  split
  · simp [Enqueued.isOther]
  · simp

/-- The slot of `r` holds `r`, unless the window is over. -/
structure Remembered (r : UInt64) (n : ℕ) (s : Orders ι) : Prop where
  since : n ≤ s.ctx.enqueued.length
  slot : othersSince r n s.ctx < idemWindow → s.ctx.idemRing (idemSlot r) = r

section Retransmits

variable [DecidableEq ι] {r : UInt64} {n : ℕ} {s s' : Orders ι} {a : OrderAct ι}

/-- **The slot keeps its id** as long as no other order takes it. -/
theorem step_remembered (h : Remembered r n s) (hg : KeepsSlot r n s a)
    (hstep : orderStep s a = some s') : Remembered r n s' := by
  cases a with
  | other conns => exact Option.some.inj hstep ▸ ⟨h.since, h.slot⟩
  | cancel i env req =>
      obtain rfl := Option.some.inj hstep
      refine ⟨?_, fun hfew => ?_⟩
      · have := h.since
        simp only [enqueued_push, List.length_append]
        omega
      · simp only [othersSince_push_cancel h.since] at hfew
        rw [idemRing_push]
        exact h.slot hfew
  | push i env req =>
      obtain rfl := Option.some.inj hstep
      have hothers := othersSince_gwPushOrder (r := r) h.since env (s.conns i) req
      refine ⟨?_, fun hfew => ?_⟩
      · have := h.since
        simp only [enqueued_gwPushOrder, List.length_append]
        omega
      · change othersSince r n (gwPushOrder env s.ctx (s.conns i) req).1 < idemWindow at hfew
        have hslot := h.slot (by omega)
        by_cases hev : Evicts r env (s.conns i) req
        · -- such an order passes, so it is the last one of the window
          have hpass : Passes env s.ctx (s.conns i) req :=
            ⟨hev.1, fun _ => by rw [hev.2.2.2, hslot]; exact hev.2.2.1.symm⟩
          have hmany := mt hg (not_not.2 hev)
          simp only [hpass, hev.2.2.1, true_and, and_true, ne_eq, not_false_eq_true] at hothers
          omega
        · change (gwPushOrder env s.ctx (s.conns i) req).1.idemRing (idemSlot r) = r
          rw [idemRing_gwPushOrder]
          split
          case isFalse => exact hslot
          case isTrue hin =>
            by_cases hsame : idemSlot req.requestId = idemSlot r
            · have hr : req.requestId = r := by
                by_contra hne
                exact hev ⟨hin.1, hin.2, hne, hsame⟩
              rw [hsame, Function.update_self, hr]
            · rw [Function.update_of_ne (Ne.symm hsame), hslot]

/-- An order that takes the slot makes the gateway forget the id. -/
theorem Remembered.keepsSlot (h : Remembered r n s) (hr : r ≠ 0)
    (hdrops : ∀ s', orderStep s a = some s' →
      othersSince r n s'.ctx < idemWindow → Drops s'.ctx r) : KeepsSlot r n s a := by
  cases a with
  | other conns => trivial
  | cancel i env req => trivial
  | push i env req =>
      intro hfew hev
      have hothers := othersSince_gwPushOrder (r := r) h.since env (s.conns i) req
      have hfew' : othersSince r n (gwPushOrder env s.ctx (s.conns i) req).1 < idemWindow := by
        rw [hothers]
        refine lt_of_le_of_lt (Nat.add_le_add_left ?_ _) hfew
        cases env.pushOk with
        | false => simp
        | true => simp only [if_true]; split <;> omega
      have hslot := (drops_iff hr).1 (hdrops _ rfl hfew')
      rw [idemRing_gwPushOrder, if_pos ⟨hev.1, hev.2.1⟩, hev.2.2.2, Function.update_self] at hslot
      exact hev.2.2.1 hslot

end Retransmits

/-- **Retransmitted orders are dropped exactly as long as no other id of the same slot comes
through.**  After an order with the id `r` was enqueued, and as long as fewer than `idemWindow`
orders with other ids were enqueued since, a further order with the id `r` is not enqueued, in every
state of a run, if and only if no order of the run takes the slot of `r`. -/
theorem retransmits_dropped_iff [DecidableEq ι] {s₀ s : Orders ι} {i : ι} {env : FrameEnv}
    {req : OrderRequest} (hid : req.requestId ≠ 0)
    (hstep : orderStep s₀ (.push i env req) = some s)
    (hfirst : s.ctx.enqueued ≠ s₀.ctx.enqueued) (acts : List (OrderAct ι)) :
    Throughout orderStep
        (fun t => othersSince req.requestId s.ctx.enqueued.length t.ctx < idemWindow →
          Drops t.ctx req.requestId) s acts ↔
      Along orderStep (KeepsSlot req.requestId s.ctx.enqueued.length) s acts := by
  have hpass : Passes env s₀.ctx (s₀.conns i) req := by
    by_contra hnot
    obtain rfl := Option.some.inj hstep
    exact hfirst (by simp [enqueued_gwPushOrder, hnot])
  have hinit : Remembered req.requestId s.ctx.enqueued.length s := by
    refine ⟨le_rfl, fun _ => ?_⟩
    obtain rfl := Option.some.inj hstep
    change (gwPushOrder env s₀.ctx (s₀.conns i) req).1.idemRing _ = _
    rw [idemRing_gwPushOrder, if_pos ⟨hpass.1, hid⟩, Function.update_self]
  exact throughout_iff_of_invariant (fun _ _ _ h hg hstep => step_remembered h hg hstep)
    (fun t h hfew => (drops_iff hid).2 (h.slot hfew)) (fun _ _ h hdrops => h.keepsSlot hid hdrops)
    hinit

/-- An order with the given id, and nothing else of interest. -/
def orderWithId (id : UInt64) : OrderRequest := { OrderRequest.blank 0 with requestId := id }

/-- The orders with the given ids, one after the other on a single connection. -/
def ordersWithIds (ids : List UInt64) : List (OrderAct Unit) :=
  ids.map fun id => .push () .calm (orderWithId id)

/-- A gateway with a single connection, before its first order. -/
def oneConn : Orders Unit := ⟨.blank, fun _ => .blank 0⟩

theorem retransmits_dropped_two_orders :
    ∃ s, orderStep oneConn (.push () .calm (orderWithId 1)) = some s ∧
      Throughout orderStep
        (fun t => othersSince 1 s.ctx.enqueued.length t.ctx < idemWindow → Drops t.ctx 1) s
        (ordersWithIds [2, 8192]) :=
  ⟨_, rfl, (retransmits_dropped_iff (show (orderWithId 1).requestId ≠ 0 by decide) rfl
    (by nofun) _).2 (by decide)⟩

/-- **A retransmitted order is enqueued twice**, after a single order with an id `8192` higher. -/
theorem retransmit_enqueued_twice :
    ∃ s, run orderStep oneConn (ordersWithIds [1, 8193, 1]) = some s ∧
      s.ctx.enqueued.map (fun e => e.msg) =
        [.order (orderWithId 1), .order (orderWithId 8193), .order (orderWithId 1)] :=
  ⟨_, rfl, rfl⟩

/-! ### A push to a full queue -/

/-- The push leaves the table, the rate count and the count of orders as they were. -/
def LeavesNoTrace (env : FrameEnv) (g : Ctx) (c : Conn) (req : OrderRequest) : Prop :=
  (gwPushOrder env g c req).1.idemRing = g.idemRing ∧
    (gwPushOrder env g c req).2.rateCount = c.rateCount ∧
    (gwPushOrder env g c req).1.ordersReceived = g.ordersReceived

/-- **A push to a full queue always leaves the gateway changed.**  The order is lost, yet it is
counted, and if it has an id every further attempt is dropped as a duplicate. -/
theorem failed_push_leaves_traces {env : FrameEnv} {g : Ctx} {c : Conn} {req : OrderRequest}
    (hpass : Passes env g c req) (hfull : env.pushOk = false) :
    (gwPushOrder env g c req).1.enqueued = g.enqueued ∧ ¬ LeavesNoTrace env g c req ∧
      (req.requestId ≠ 0 → Drops (gwPushOrder env g c req).1 req.requestId) := by
  refine ⟨by simp [enqueued_gwPushOrder, hfull], fun h => ?_, fun hid => ?_⟩
  · have hcount := h.2.2
    rw [ordersReceived_gwPushOrder env g c req hpass] at hcount
    simp at hcount
  · rw [drops_iff hid, idemRing_gwPushOrder, if_pos ⟨hpass.1, hid⟩, Function.update_self]

/-- The environment of a push that finds the queue full. -/
def FrameEnv.full : FrameEnv := { FrameEnv.calm with pushOk := false }

theorem failed_push_on_fresh_gateway :
    Passes .full .blank (.blank 0) (orderWithId 1) ∧
      ¬ LeavesNoTrace .full .blank (.blank 0) (orderWithId 1) ∧
      Drops (gwPushOrder .full .blank (.blank 0) (orderWithId 1)).1 1 := by
  have hpass : Passes .full .blank (.blank 0) (orderWithId 1) := by decide
  have h := failed_push_leaves_traces hpass rfl
  exact ⟨hpass, h.2.1, h.2.2 (by decide)⟩

/-- **An order that met a full queue cannot be sent again**: it was not enqueued the first time, and
is dropped as a duplicate the second time, when there is room. -/
theorem retry_after_full_queue_dropped :
    ∃ s, run orderStep oneConn
        [.push () .full (orderWithId 1), .push () .calm (orderWithId 1)] = some s ∧
      s.ctx.enqueued = [] ∧ s.ctx.idemRing 1 = 1 ∧ s.ctx.ordersReceived = 1 ∧
      (s.conns ()).rateCount = 1 :=
  ⟨_, rfl, rfl, by decide, by decide, by decide⟩

end Gateway
