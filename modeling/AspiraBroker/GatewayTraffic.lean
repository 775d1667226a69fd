/-
**The frames that the gateway handles, and what they ask for.**

Of everything that the gateway does, only a whole frame that is handled changes what the connections
share: the idempotency ring, the queue, and the rights of the connection that sent it.  This module
singles these steps out, says what the frame asks for and what is done about it, and so sees a run
of the gateway as a run of `gw_push_order` over its connections.

What a frame asks for is read from a buffer that nothing clears.  A frame is self-contained if it is
not read beyond its payload; then what stood in the buffer does not matter.

Main definitions:

* `Gateway.Service`, `Gateway.served` — the frame that a step handles;
* `Gateway.Serves` — what a step does to the context and to the rights of the connections;
* `Gateway.orderActs` — a step, as calls of `gw_push_order`;
* `Gateway.Frame.SelfContained` — the frame is not read beyond its payload;
* `Gateway.Request.slot`, `Gateway.Request.writes`, `Gateway.Request.messages` — the slot of the
  idempotency ring that a request refers to, the one it writes, and what it enqueues.

Main results:

* `Gateway.serves_of_step` — everything a step can do to the context;
* `Gateway.run_orderActs` — **the gateway's calls of `gw_push_order` are a run of it**;
* `Gateway.frameRequest_congr` — **what a self-contained frame asks for does not depend on the
  buffer**;
* `Gateway.idemRing_gwServe`, `Gateway.enqueued_gwServe` — what serving a request does.
-/

import AspiraBroker.GatewayAuth
import AspiraBroker.GatewayOrders

set_option relaxedAutoImplicit false
set_option autoImplicit false

namespace Gateway

open Ring Transition

/-! ### What a step does to the context -/

/-- The connection has the same rights and the same frames behind it. -/
structure SameRights (c c' : Conn) : Prop where
  authenticated : c'.authenticated = c.authenticated
  rateWindowStart : c'.rateWindowStart = c.rateWindowStart
  rateCount : c'.rateCount = c.rateCount
  handled : c'.handled = c.handled

theorem SameRights.refl (c : Conn) : SameRights c c := ⟨rfl, rfl, rfl, rfl⟩

theorem SameRights.symm {c c' : Conn} (h : SameRights c c') : SameRights c' c :=
  ⟨h.authenticated.symm, h.rateWindowStart.symm, h.rateCount.symm, h.handled.symm⟩

theorem SameRights.trans {c c' c'' : Conn} (h : SameRights c c') (h' : SameRights c' c'') :
    SameRights c c'' :=
  ⟨h'.authenticated.trans h.authenticated, h'.rateWindowStart.trans h.rateWindowStart,
    h'.rateCount.trans h.rateCount, h'.handled.trans h.handled⟩

theorem SendOnly.sameRights {c c' : Conn} (h : SendOnly c c') : SameRights c c' :=
  ⟨h.stream.authenticated, h.rateWindowStart, h.rateCount, h.stream.handled⟩

/-- The connection after one more frame. -/
def Conn.after (c : Conn) (before : List Frame) (f : Frame) : Conn :=
  { c with handled := before ++ [f] }

theorem SameRights.after {c c' : Conn} (h : SameRights c c') {before before' : List Frame}
    (hbefore : before' = before) (f : Frame) :
    SameRights (c.after before f) (c'.after before' f) :=
  ⟨h.authenticated, h.rateWindowStart, h.rateCount, by rw [hbefore]; rfl⟩

/-- A frame that is handled: the slot of its connection, what the environment decides, and the
frame. -/
structure Service where
  slot : ℕ
  env : FrameEnv
  frame : Frame

/-- The frame that a step handles: a round of `gw_process_data` that finds a whole frame. -/
def served (s : Sys) : Act → Option Service
  | .frame env =>
      match s.pc with
      | .process i _ _ =>
          if (s.conns i).Complete then some ⟨i, env, (s.conns i).front⟩ else none
      | _ => none
  | _ => none

/-- A step that handles a frame is a round with the environment of the frame. -/
theorem eq_frame_of_served {s : Sys} {a : Act} {v : Service} (h : served s a = some v) :
    a = .frame v.env := by
  cases a with
  | frame env =>
      simp only [served] at h
      split at h
      · simp only [Option.ite_none_right_eq_some, Option.some.injEq] at h
        rw [← h.2]
      · cases h
  | _ => cases h

/-- The frame that a step handles is at the front of the ring that is worked on. -/
theorem front_of_served {s : Sys} {a : Act} {v : Service} (h : served s a = some v) :
    s.pc.processing = some v.slot ∧ (s.conns v.slot).Complete ∧
      v.frame = (s.conns v.slot).front := by
  cases a with
  | frame env =>
      cases hpc : s.pc with
      | process i flags rest =>
          simp only [served, hpc, Option.ite_none_right_eq_some, Option.some.injEq] at h
          obtain ⟨hfront, rfl⟩ := h
          exact ⟨rfl, hfront, rfl⟩
      | _ => simp [served, hpc] at h
  | _ => cases h

/-- Outside `gw_process_data` no frame is handled. -/
theorem served_of_not_processing {s : Sys} (h : s.pc.processing = none) (a : Act) :
    served s a = none := by
  cases a with
  | frame env =>
      cases hpc : s.pc with
      | process i flags rest =>
          rw [hpc] at h
          cases h
      | _ => simp [served, hpc]
  | _ => rfl

/-- What the frame asks for. -/
def Service.request (v : Service) (s : Sys) : Request :=
  frameRequest v.env (s.conns v.slot).authenticated v.frame

/-- What is done about it. -/
def Service.outcome (v : Service) (s : Sys) : Option (Ctx × Conn) :=
  gwServe v.env s.ctx (s.conns v.slot) (v.request s)

/-- What a step does to the context and to the rights of the connections: nothing, or it opens a
slot, or it handles a frame, for which there may be no memory. -/
inductive Serves (s : Sys) (a : Act) (s' : Sys) : Prop
  | quiet (hnone : served s a = none) (hctx : s'.ctx = s.ctx)
      (hconns : ∀ j, SameRights (s.conns j) (s'.conns j))
  | opened {i cfd : ℕ} {now : UInt64} (hnone : served s a = none)
      (ha : a = .accept (.conn cfd true now)) (hfree : gwFindFreeSlot s = some i)
      (hctx : s'.ctx = s.ctx) (hconns : s'.conns = Function.update s.conns i (.accepted cfd now))
  | refused {v : Service} (hsome : served s a = some v) (hout : v.outcome s = none)
      (hctx : s'.ctx = s.ctx) (hconns : ∀ j, SameRights (s.conns j) (s'.conns j))
  | served {v : Service} {c : Conn} (hsome : served s a = some v)
      (hout : v.outcome s = some (s'.ctx, c))
      (hself : SameRights (c.after (s.conns v.slot).handled v.frame) (s'.conns v.slot))
      (hothers : ∀ j, j ≠ v.slot → s'.conns j = s.conns j)

theorem serves_of_frameStep {s : Sys} {i : ℕ} {flags : Flags} {rest : List Event} {env : FrameEnv}
    (hpc : s.pc = .process i flags rest) :
    Serves s (.frame env) (frameStep s i flags rest env) := by
  by_cases hfront : (s.conns i).Complete
  · have hserved : served s (.frame env) = some ⟨i, env, (s.conns i).front⟩ := by
      simp [served, hpc, hfront]
    have hout : Service.outcome ⟨i, env, (s.conns i).front⟩ s =
        gwHandle env s.ctx (s.conns i) (s.conns i).front := (gwHandle_eq _ _ _ _).symm
    cases hhandle : gwHandle env s.ctx (s.conns i) (s.conns i).front with
    | none =>
        simp only [frameStep, gwProcessRound_of_noMemory hfront hhandle]
        exact .refused hserved (hout.trans hhandle) rfl
          (rel_update .refl (sendOnly_closing _).sameRights)
    | some p =>
        simp only [frameStep, gwProcessRound_of_complete hfront hhandle]
        refine .served hserved (hout.trans hhandle) ?_ fun j hj => Function.update_of_ne hj _ _
        simp only [Sys.put, Function.update_self]
        exact ⟨rfl, rfl, rfl, rfl⟩
  · have hserved : served s (.frame env) = none := by simp [served, hpc, hfront]
    obtain ⟨hctx, hconn⟩ : (gwProcessRound env s.ctx (s.conns i)).1 = s.ctx ∧ _ :=
      sendOnly_gwProcessRound hfront
    exact .quiet hserved hctx (rel_update .refl hconn.sameRights)

/-- **Everything a step can do to the context.** -/
theorem serves_of_step {s s' : Sys} {a : Act} (h : step s a = some s') : Serves s a s' := by
  cases touches_of_step h with
  | sends hpc hpc' hctx hconns =>
      exact .quiet (served_of_not_processing hpc a) hctx fun j => (hconns j).sameRights
  | opened hpc hpc' hctx hfree hconns => exact .opened rfl rfl hfree hctx hconns
  | @closed _ _ i c hpc hpc' hctx hsent hconns =>
      have hrights : SameRights (s.conns i) { c with fd := -1 } :=
        hsent.sameRights.trans ⟨rfl, rfl, rfl, rfl⟩
      exact .quiet (served_of_not_processing hpc a) hctx (hconns ▸ rel_update .refl hrights)
  | stored hpc hpos hroom => exact .quiet rfl rfl (rel_update .refl ⟨rfl, rfl, rfl, rfl⟩)
  | round hpc => exact serves_of_frameStep hpc

/-- There is no outcome only for want of memory. -/
theorem gwServe_eq_none_iff {env : FrameEnv} {g : Ctx} {c : Conn} {r : Request} :
    gwServe env g c r = none ↔ r = .noMemory := by
  cases r <;> simp [gwServe]

/-- What is done about an order is a call of `gw_push_order`. -/
theorem eq_of_gwServe_order {env : FrameEnv} {g g' : Ctx} {c c' : Conn} {req : OrderRequest}
    (h : gwServe env g c (.order req) = some (g', c')) :
    (gwPushOrder env g c req).1 = g' ∧ (gwPushOrder env g c req).2 = c' := by
  rw [gwServe, Option.some.injEq] at h
  exact ⟨by rw [h], by rw [h]⟩

/-! ### The calls of `gw_push_order` -/

/-- A request as a call of `gw_push_order` or as a cancel. -/
def Request.orderAct (i : ℕ) (env : FrameEnv) : Request → List (OrderAct ℕ)
  | .order req => [.push i env req]
  | .cancel req => [.cancel i env req]
  | .noMemory | .skip | .auth => []

/-- A step, as calls of `gw_push_order` and changes of the connections. -/
def orderActs (s : Sys) (a : Act) : List (OrderAct ℕ) :=
  match step s a with
  | none => []
  | some s' =>
      (match served s a with
        | none => []
        | some v => (v.request s).orderAct v.slot v.env) ++ [.other s'.conns]

/-- The context after a request is served. -/
theorem run_orderAct {i : ℕ} {env : FrameEnv} {g g' : Ctx} {conns : ℕ → Conn} {c : Conn}
    {r : Request} (h : gwServe env g (conns i) r = some (g', c)) (conns' : ℕ → Conn) :
    run orderStep ⟨g, conns⟩ (r.orderAct i env ++ [.other conns']) = some ⟨g', conns'⟩ := by
  cases r with
  | noMemory => cases h
  | skip | auth | cancel req =>
      cases h
      rfl
  | order req =>
      obtain ⟨rfl, -⟩ := eq_of_gwServe_order h
      rfl

/-- **The gateway's calls of `gw_push_order` are a run of it**: a step of the gateway changes the
context and the connections as these calls do. -/
theorem run_orderActs {s s' : Sys} {a : Act} (h : step s a = some s') :
    run orderStep ⟨s.ctx, s.conns⟩ (orderActs s a) = some ⟨s'.ctx, s'.conns⟩ := by
  cases serves_of_step h with
  | quiet hnone hctx hconns =>
      rw [hctx]
      simp only [orderActs, h, hnone]
      rfl
  | opened hnone ha hfree hctx hconns =>
      rw [hctx]
      simp only [orderActs, h, hnone]
      rfl
  | @refused v hsome hout hctx hconns =>
      rw [hctx]
      simp only [orderActs, h, hsome, gwServe_eq_none_iff.1 hout]
      rfl
  | served hsome hout hself hothers =>
      simp only [orderActs, h, hsome]
      exact run_orderAct hout _

/-! ### Frames that are not read beyond their end -/

/-- The gateway does not read the frame beyond its payload: an `A` frame has the length of a key or
does not begin like one, and a `B` frame that is long enough to be read has all fields. -/
def Frame.SelfContained (f : Frame) : Prop :=
  (f.msgType = ascii 'A' → f.payload.length < btApiKeyLen → ∀ key ∈ gApiKeys, ¬ f.payload <+: key) ∧
    (f.msgType = ascii 'B' → f.payload.length < 48 ∨ 52 ≤ f.payload.length)

instance (f : Frame) : Decidable f.SelfContained :=
  inferInstanceAs (Decidable ((_ → _ → ∀ key ∈ gApiKeys, _) ∧ (_ → _ ∨ _)))

/-- What the environment decides, apart from what the payload buffer held before. -/
def FrameEnv.cleared (env : FrameEnv) : FrameEnv := { env with stale := fun _ => 0 }

/-- The key check of a self-contained frame does not depend on the buffer. -/
theorem gwValidateApiKey_congr {payload : List UInt8}
    (h : payload.length < btApiKeyLen → ∀ key ∈ gApiKeys, ¬ payload <+: key)
    (stale stale' : ℕ → UInt8) :
    gwValidateApiKey (fill stale 0 payload) = gwValidateApiKey (fill stale' 0 payload) := by
  rw [Bool.eq_iff_iff, gwValidateApiKey_iff, gwValidateApiKey_iff]
  rcases Nat.lt_or_ge payload.length btApiKeyLen with hshort | hlong
  · have hnot : ∀ buf, slice (fill buf 0 payload) 0 btApiKeyLen ∉ gApiKeys := fun buf hkey =>
      let ⟨key, hmem, hpre, _⟩ := completes_of_short hshort hkey
      h hshort key hmem hpre
    exact iff_of_false (hnot stale) (hnot stale')
  · rw [slice_fill_congr (by omega)]

/-- The binary parser reads the first `52` bytes. -/
theorem gwParseOrderBinary_congr {pb pb' : ℕ → UInt8} {len : ℕ}
    (h : 48 ≤ len → ∀ pos k, pos + k ≤ 52 → slice pb pos k = slice pb' pos k) (now : UInt64) :
    gwParseOrderBinary pb len now = gwParseOrderBinary pb' len now := by
  rcases Nat.lt_or_ge len 48 with hshort | hlong
  · rw [gwParseOrderBinary, if_pos (.inl hshort), gwParseOrderBinary, if_pos (.inl hshort)]
  · have hslice := h hlong
    have hsymbol : Symbol.read pb 16 = Symbol.read pb' 16 := by
      simp only [Symbol.read, hslice 16 16 (by decide)]
    simp only [gwParseOrderBinary, hsymbol, hslice 0 8 (by decide), hslice 8 8 (by decide),
      hslice 32 8 (by decide), hslice 40 4 (by decide), hslice 44 4 (by decide),
      hslice 48 4 (by decide)]

/-- A cancel is read from the first `32` bytes. -/
theorem gwCancelRequest_congr {cbuf cbuf' : ℕ → UInt8}
    (h : ∀ pos k, pos + k ≤ 32 → slice cbuf pos k = slice cbuf' pos k) (now : UInt64) :
    gwCancelRequest cbuf now = gwCancelRequest cbuf' now := by
  simp only [gwCancelRequest, Symbol.read, h 0 8 (by decide), h 8 8 (by decide),
    h 16 16 (by decide)]

/-- **What a self-contained frame asks for does not depend on the buffer** that it is copied to. -/
theorem frameRequest_congr {f : Frame} (hf : f.SelfContained) {env env' : FrameEnv}
    (henv : env.cleared = env'.cleared) (authenticated : Bool) :
    frameRequest env authenticated f = frameRequest env' authenticated f := by
  obtain ⟨hA, hB⟩ := hf
  simp only [FrameEnv.cleared, FrameEnv.mk.injEq, true_and] at henv
  obtain ⟨hmalloc, hstamp, -, -, hstrtod⟩ := henv
  have hkey := fun htype => gwValidateApiKey_congr (hA htype) env.stale env'.stale
  have hbinary : f.msgType = ascii 'B' →
      gwParseOrderBinary (fill env.stale 0 f.payload) f.payload.length env'.stamp =
        gwParseOrderBinary (fill env'.stale 0 f.payload) f.payload.length env'.stamp := by
    refine fun htype => gwParseOrderBinary_congr (fun hlong pos k hle => slice_fill_congr ?_) _
    have := hB htype
    omega
  have hcancel : 32 ≤ f.payload.length →
      gwCancelRequest (fill env.stale 0 (f.payload.take 64)) env'.stamp =
        gwCancelRequest (fill env'.stale 0 (f.payload.take 64)) env'.stamp := by
    refine fun hlen => gwCancelRequest_congr (fun pos k hle => slice_fill_congr ?_) _
    rw [List.length_take]
    omega
  simp only [frameRequest, hmalloc, hstamp, hstrtod]
  refine ite_congr rfl (fun htype => by rw [hkey htype]) fun _ => ite_congr rfl (fun _ => rfl)
    fun _ => ite_congr rfl (fun _ => ?_) fun _ => ite_congr rfl (fun _ => ?_) fun _ => rfl
  · rw [ite_congr rfl (fun htype => hbinary htype) fun _ => rfl]
  · exact ite_congr rfl (fun hlen => by rw [hcancel hlen]) fun _ => rfl

/-! ### What a request does -/

/-- The slot of the idempotency ring that a request refers to. -/
def Request.slot : Request → Option ℕ
  | .order req => if req.requestId = 0 then none else some (idemSlot req.requestId)
  | .noMemory | .skip | .auth | .cancel _ => none

/-- The slot of the idempotency ring that serving the request writes. -/
def Request.writes (env : FrameEnv) (g : Ctx) (c : Conn) (r : Request) : Option ℕ :=
  match r with
  | .order req => if Passes env g c req then r.slot else none
  | .noMemory | .skip | .auth | .cancel _ => none

/-- The messages that serving the request enqueues. -/
def Request.messages (env : FrameEnv) (g : Ctx) (c : Conn) : Request → List OmsMsg
  | .order req => if Passes env g c req ∧ env.pushOk = true then [.order req] else []
  | .cancel req => if env.pushOk = true then [.cancel req] else []
  | .noMemory | .skip | .auth => []

section Requests

variable {env : FrameEnv} {g g' : Ctx} {c c' : Conn} {r : Request}

/-- Serving a request writes no other slot. -/
theorem idemRing_gwServe (h : gwServe env g c r = some (g', c')) {n : ℕ}
    (hn : n ∉ r.writes env g c) : g'.idemRing n = g.idemRing n := by
  cases r with
  | noMemory => cases h
  | skip | auth => cases h; rfl
  | cancel req =>
      cases h
      rw [idemRing_push]
  | order req =>
      obtain ⟨rfl, -⟩ := eq_of_gwServe_order h
      by_cases hpass : Passes env g c req
      · rw [idemRing_gwPushOrder]
        split
        case isFalse => rfl
        case isTrue hin =>
          refine Function.update_of_ne ?_ _ _
          rintro rfl
          exact hn (by simp [Request.writes, Request.slot, hpass, hin.2])
      · rw [gwPushOrder_of_not_passes env g c req hpass]

/-- What serving a request enqueues. -/
theorem enqueued_gwServe (h : gwServe env g c r = some (g', c')) :
    g'.enqueued = g.enqueued ++ (r.messages env g c).map fun msg => ⟨msg, c.handled⟩ := by
  cases r with
  | noMemory => cases h
  | skip | auth => cases h; exact (List.append_nil _).symm
  | cancel req =>
      cases h
      rw [enqueued_push, Request.messages]
      split <;> rfl
  | order req =>
      obtain ⟨rfl, -⟩ := eq_of_gwServe_order h
      rw [enqueued_gwPushOrder, Request.messages]
      split <;> rfl

end Requests

/-- A request writes no slot but its own. -/
theorem mem_slot_of_mem_writes {env : FrameEnv} {g : Ctx} {c : Conn} {r : Request} {n : ℕ}
    (h : n ∈ r.writes env g c) : n ∈ r.slot := by
  cases r with
  | order req =>
      rw [Request.writes] at h
      split at h
      · exact h
      · cases h
  | _ => cases h

end Gateway
