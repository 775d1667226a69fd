/-
**What one client can do to the orders of another.**

The connections of the gateway share its context.  What a connection is allowed to do depends on its
own authentication and rate, but whether an order is taken for a duplicate depends on the slot of
its request id in the idempotency ring, and any connection can write that slot.  A frame is also
copied to a buffer that nothing clears, so a frame which the gateway reads beyond its payload shows
what was there before.

These are the only ways.  Two runs in which a connection sends the same frames at the same times
enqueue the same messages for it, whatever the other connections do, as long as the slots of its
orders are left to it and its frames are not read beyond their end.

Main definitions:

* `Gateway.Session` — a run of the gateway with a connection in it;
* `Gateway.sends`, `Gateway.enqueuesFor` — what goes in and what comes out for the connection;
* `Gateway.Apart` — the slots of a connection's orders are left to it;
* `Gateway.Alike` — two gateways treat a connection alike.

Main results:

* `Gateway.gwServe_congr` — a request has the same effect in two gateways that treat it alike;
* `Gateway.handled_of_run` — the frames of a session are the frames handled on its connection;
* `Gateway.unwinds` — the conditions of the unwinding rule;
* `Gateway.clients_isolated` — **clients whose orders have slots of their own do not affect each
  other**.
-/

import AspiraBroker.GatewayFraming
import AspiraBroker.GatewayTraffic
import AspiraBroker.TwoRuns

set_option relaxedAutoImplicit false
set_option autoImplicit false

namespace Gateway

open Transition

/-! ### Two gateways that treat a connection alike -/

section Alike

variable {env env' : FrameEnv} {g g₁ g' g₁' : Ctx} {c c₁ c' c₁' : Conn} {r : Request}

/-- The rate window of a connection with the same rights. -/
theorem sameRights_rateWindow (hc : SameRights c c') (now : UInt64) :
    SameRights (c.rateWindow now) (c'.rateWindow now) := by
  obtain ⟨hauth, hstart, hcount, hhandled⟩ := hc
  unfold Conn.rateWindow
  rw [hstart]
  split
  · exact ⟨hauth, rfl, rfl, hhandled⟩
  · exact ⟨hauth, hstart, hcount, hhandled⟩

/-- An order passes in two gateways alike if the connection has the same rights in both and the slot
of the order holds the same. -/
theorem passes_congr (hnow : env.now = env'.now) (hc : SameRights c c') {req : OrderRequest}
    (hring : ∀ n ∈ (Request.order req).slot, g'.idemRing n = g.idemRing n) :
    Passes env' g' c' req ↔ Passes env g c req := by
  have hrate := (sameRights_rateWindow hc env'.now).rateCount
  rw [Passes, Passes, WithinRate, WithinRate, hnow, hrate]
  refine and_congr_right fun _ => imp_congr_right fun hid => ?_
  rw [hring _ (by simp [Request.slot, hid])]

/-- A request has the same effect on the connection and the same messages in two gateways that treat
it alike. -/
theorem gwServe_congr (henv : env.cleared = env'.cleared) (hc : SameRights c c')
    (hring : ∀ n ∈ r.slot, g'.idemRing n = g.idemRing n)
    (h : gwServe env g c r = some (g₁, c₁)) (h' : gwServe env' g' c' r = some (g₁', c₁')) :
    SameRights c₁ c₁' ∧ (∀ n ∈ r.slot, g₁'.idemRing n = g₁.idemRing n) ∧
      r.messages env' g' c' = r.messages env g c := by
  simp only [FrameEnv.cleared, FrameEnv.mk.injEq, true_and] at henv
  obtain ⟨-, -, hnow, hpush, -⟩ := henv
  cases r with
  | noMemory => cases h
  | skip =>
      cases h
      cases h'
      exact ⟨hc, by simp [Request.slot], rfl⟩
  | auth =>
      cases h
      cases h'
      exact ⟨⟨rfl, hc.rateWindowStart, hc.rateCount, hc.handled⟩, by simp [Request.slot], rfl⟩
  | cancel req =>
      cases h
      cases h'
      exact ⟨hc, by simp [Request.slot], by rw [Request.messages, Request.messages, hpush]⟩
  | order req =>
      have hpass := passes_congr hnow hc hring
      have hrate := sameRights_rateWindow hc env'.now
      obtain ⟨rfl, rfl⟩ := eq_of_gwServe_order h
      obtain ⟨rfl, rfl⟩ := eq_of_gwServe_order h'
      refine ⟨?_, fun n hn => ?_, ?_⟩
      · rw [conn_gwPushOrder, conn_gwPushOrder, hnow]
        simp only [hpass]
        split
        · exact ⟨hrate.authenticated, hrate.rateWindowStart, by rw [hrate.rateCount],
            hrate.handled⟩
        · exact hrate
      · have hwithin : WithinRate env' c' ↔ WithinRate env c := by
          rw [WithinRate, WithinRate, hnow, hrate.rateCount]
        have hslot : n = idemSlot req.requestId := by
          simp only [Request.slot, Option.mem_def] at hn
          split at hn
          · cases hn
          · exact (Option.some.inj hn).symm
        rw [idemRing_gwPushOrder, idemRing_gwPushOrder]
        simp only [hwithin]
        split
        · rw [hslot, Function.update_self, Function.update_self]
        · exact hring n hn
      · simp only [Request.messages, hpass, hpush]

end Alike

/-! ### Sessions -/

/-- The slots `S` of the idempotency ring are left to the connection in slot `own`: the frames of
that connection are not read beyond their end and its orders have their slots in `S`, and no order
of another connection writes a slot in `S`. -/
def Apart (S : List ℕ) (own : Option ℕ) (s : Sys) (a : Act) : Prop :=
  ∀ v ∈ served s a,
    if own = some v.slot then v.frame.SelfContained ∧ ∀ n ∈ (v.request s).slot, n ∈ S
    else ∀ n ∈ (v.request s).writes v.env s.ctx (s.conns v.slot), n ∉ S

/-- The step puts no new connection into slot `i`. -/
def Occupies (i : ℕ) (s : Sys) : Act → Prop
  | .accept (.conn _ true _) => gwFindFreeSlot s ≠ some i
  | _ => True

instance (S : List ℕ) (own : Option ℕ) (s : Sys) (a : Act) : Decidable (Apart S own s a) :=
  inferInstanceAs (Decidable (∀ v ∈ served s a,
    if own = some v.slot then v.frame.SelfContained ∧ ∀ n ∈ (v.request s).slot, n ∈ S
    else ∀ n ∈ (v.request s).writes v.env s.ctx (s.conns v.slot), n ∉ S))

instance (i : ℕ) (s : Sys) : (a : Act) → Decidable (Occupies i s a)
  | .accept (.conn _ true _) => inferInstanceAs (Decidable (gwFindFreeSlot s ≠ some i))
  | .accept (.conn _ false _) | .accept .none | .turn .. | .poll _ | .dispatch | .read _
  | .frame _ | .finish .. | .idleScan _ => isTrue trivial

/-- The slot of a connection is not the free one that a new connection gets. -/
theorem Occupies.ne_of_free {i k cfd : ℕ} {s : Sys} {a : Act} {now : UInt64} (h : Occupies i s a)
    (ha : a = .accept (.conn cfd true now)) (hfree : gwFindFreeSlot s = some k) : i ≠ k := by
  subst ha
  rintro rfl
  exact h hfree

/-- What the connection in slot `i` sends in a step: a frame, with what the environment decides
while it is handled, apart from what the buffer held before. -/
def sends (i : ℕ) (s : Sys) (a : Act) : Option (Frame × FrameEnv) :=
  (served s a).bind fun v => if v.slot = i then some (v.frame, v.env.cleared) else none

/-- The messages that a step enqueues. -/
def enqueues (s : Sys) (a : Act) : List OmsMsg :=
  match step s a with
  | none => []
  | some s' => (s'.ctx.enqueued.drop s.ctx.enqueued.length).map Enqueued.msg

/-- The messages that a step enqueues for the connection in slot `i`. -/
def enqueuesFor (i : ℕ) (s : Sys) (a : Act) : Option (List OmsMsg) :=
  (served s a).bind fun v => if v.slot = i then some (enqueues s a) else none

/-- A run of the gateway with a connection in it: the run up to a state in which the connection has
just been accepted, and the run from there on, as long as the slot is not given to another one. -/
structure Session (maxConns : ℕ) where
  before : List Act
  start : Sys
  reached : run step (btGatewayCreate maxConns) before = some start
  slot : ℕ
  cfd : ℕ
  now : UInt64
  accepted : start.conns slot = .accepted cfd now
  during : List Act
  occupied : Along step (Occupies slot) start during

namespace Session

variable {maxConns : ℕ}

/-- The frames of the connection. -/
def frames (x : Session maxConns) : List (Frame × FrameEnv) :=
  observed step (sends x.slot) x.start x.during

/-- The orders and cancels enqueued for the connection. -/
def messages (x : Session maxConns) : List OmsMsg :=
  (observed step (enqueuesFor x.slot) x.start x.during).flatten

/-- The slots `S` are left to the connection, before it is accepted and afterwards. -/
def LeftTo (S : List ℕ) (x : Session maxConns) : Prop :=
  Along step (Apart S none) (btGatewayCreate maxConns) x.before ∧
    Along step (Apart S (some x.slot)) x.start x.during

end Session

/-! ### The frames of a session -/

section History

variable {i : ℕ} {s s' t : Sys} {a : Act}

/-- A frame for which there is memory is served. -/
theorem Affords.outcome_ne_none {v : Service} (h : Affords v.slot s a) (hv : served s a = some v) :
    v.outcome s ≠ none := by
  obtain ⟨hpc, hfront, hframe⟩ := front_of_served hv
  rw [eq_frame_of_served hv] at h
  have hsome := h hpc hfront
  rw [← hframe, gwHandle_eq] at hsome
  exact Option.isSome_iff_ne_none.1 hsome

/-- The frames that a step handles on a connection are those that it sends. -/
theorem handled_of_step (hg : Affords i s a ∧ Occupies i s a) (h : step s a = some s') :
    (s'.conns i).handled = (s.conns i).handled ++ ((sends i s a).map Prod.fst).toList := by
  cases serves_of_step h with
  | quiet hnone hctx hconns => simp [sends, hnone, (hconns i).handled]
  | opened hnone ha hfree hctx hconns =>
      simp [sends, hnone, hconns, Function.update_of_ne (hg.2.ne_of_free ha hfree)]
  | @refused v hsome hout hctx hconns =>
      -- there is memory for every frame of this connection
      have hi : v.slot ≠ i := by
        rintro rfl
        exact hg.1.outcome_ne_none hsome hout
      simp [sends, hsome, hi, (hconns i).handled]
  | @served v c hsome hout hself hothers =>
      by_cases hi : v.slot = i
      · subst hi
        simp [sends, hsome, hself.handled, Conn.after]
      · simp [sends, hsome, hi, hothers i (Ne.symm hi)]

/-- **The frames of a connection are the frames that are handled on it.** -/
theorem handled_of_run {as : List Act}
    (hg : Along step (fun s a => Affords i s a ∧ Occupies i s a) s as)
    (hr : run step s as = some t) :
    (t.conns i).handled =
      (s.conns i).handled ++ (observed step (sends i) s as).map Prod.fst := by
  induction as generalizing s with
  | nil =>
      obtain rfl : s = t := by simpa using hr
      simp [observed]
  | cons a as ih =>
      obtain ⟨s', hstep, hr'⟩ := run_cons_iff.1 hr
      rw [ih (hg.2 s' hstep) hr', handled_of_step hg.1 hstep]
      simp only [observed, hstep, List.map_append, List.append_assoc]
      cases sends i s a <;> rfl

/-- What a connection has received is not taken back. -/
theorem received_of_step (hocc : Occupies i s a) (h : step s a = some s') :
    (s.conns i).received <+: (s'.conns i).received := by
  cases stream_of_step h with
  | quiet hpc hpc' hctx hconns => simp [(hconns i).received]
  | opened hpc hpc' hctx hconns ha hfree =>
      simp [hconns, Function.update_of_ne (hocc.ne_of_free ha hfree)]
  | @stored k flags rest bytes now hpc hpos hroom =>
      exact rel_update (r := fun c c' => c.received <+: c'.received) (fun _ => List.prefix_rfl)
        (List.prefix_append _ bytes) i
  | @round k flags rest env hpc =>
      refine rel_update (r := fun c c' => c.received <+: c'.received)
        (fun _ => List.prefix_rfl) ?_ i
      simp [received_of_round (round_of_gwProcessRound env s.ctx (s.conns k))]

/-- In a run in which the environment always decides the same, the frames tell everything. -/
theorem sends_of_env {e : FrameEnv} {as : List Act} (h : ∀ env, .frame env ∈ as → env = e) :
    observed step (sends i) s as =
      ((observed step (sends i) s as).map Prod.fst).map fun f => (f, e.cleared) := by
  rw [List.map_map]
  refine observed_eq_map _ (fun a ha s => ?_) s
  cases hv : served s a with
  | none => simp [sends, hv]
  | some v =>
      rw [eq_frame_of_served hv] at ha
      by_cases hi : v.slot = i
      · simp [sends, hv, hi, h v.env ha]
      · simp [sends, hv, hi]

end History

/-! ### Clients do not affect each other -/

section Isolation

variable {S : List ℕ} {i j : ℕ} {s s' t t' : Sys} {a b : Act}

/-- A step that writes no slot of the ring but those of others leaves the slot as it is. -/
theorem ring_of_step (h : step s a = some s') {n : ℕ}
    (hn : ∀ v ∈ served s a, n ∉ (v.request s).writes v.env s.ctx (s.conns v.slot)) :
    s'.ctx.idemRing n = s.ctx.idemRing n := by
  cases serves_of_step h with
  | quiet hnone hctx _ | opened hnone _ _ hctx _ | refused _ _ hctx _ => rw [hctx]
  | served hsome hout _ _ => exact idemRing_gwServe hout (hn _ hsome)

/-- A frame for which there is no memory changes nothing. -/
theorem step_of_noMemory (h : step s a = some s') {v : Service} (hv : served s a = some v)
    (hr : v.request s = .noMemory) :
    s'.ctx = s.ctx ∧ SameRights (s.conns v.slot) (s'.conns v.slot) ∧ enqueues s a = [] := by
  cases serves_of_step h with
  | quiet hnone _ _ | opened hnone _ _ _ _ => cases hv.symm.trans hnone
  | refused hsome hout hctx hconns =>
      exact ⟨hctx, hconns _, by simp [enqueues, h, hctx]⟩
  | served hsome hout _ _ =>
      cases hv.symm.trans hsome
      cases (gwServe_eq_none_iff.2 hr).symm.trans hout

/-- Any other frame is served. -/
theorem step_of_served (h : step s a = some s') {v : Service} (hv : served s a = some v)
    (hr : v.request s ≠ .noMemory) :
    ∃ c, v.outcome s = some (s'.ctx, c) ∧
      SameRights (c.after (s.conns v.slot).handled v.frame) (s'.conns v.slot) := by
  cases serves_of_step h with
  | quiet hnone _ _ | opened hnone _ _ _ _ => cases hv.symm.trans hnone
  | refused hsome hout _ _ =>
      cases hv.symm.trans hsome
      exact absurd (gwServe_eq_none_iff.1 hout) hr
  | served hsome hout hself _ =>
      cases hv.symm.trans hsome
      exact ⟨_, hout, hself⟩

/-- What a step enqueues is what the request asks for. -/
theorem enqueues_eq (h : step s a = some s') {v : Service} {c : Conn}
    (hout : v.outcome s = some (s'.ctx, c)) :
    enqueues s a = (v.request s).messages v.env s.ctx (s.conns v.slot) := by
  simp only [enqueues, h]
  rw [enqueued_gwServe hout, List.drop_left, List.map_map]
  exact List.map_id _

/-- Two gateways treat the connections in slots `i` and `j` alike: they have the same rights, and
the ring holds the same in the slots `S`. -/
structure Alike (S : List ℕ) (i j : ℕ) (s t : Sys) : Prop where
  rights : SameRights (s.conns i) (t.conns j)
  ring : ∀ n ∈ S, t.ctx.idemRing n = s.ctx.idemRing n

theorem Alike.symm (h : Alike S i j s t) : Alike S j i t s :=
  ⟨h.rights.symm, fun n hn => (h.ring n hn).symm⟩

/-- The observer of the connection in slot `i`. -/
def clientObserver (S : List ℕ) (i : ℕ) :
    Observer Sys Act (Frame × FrameEnv) (List OmsMsg) where
  step := step
  guard s a := Apart S (some i) s a ∧ Occupies i s a
  see := sends i
  emit := enqueuesFor i

/-- A step that handles no frame of the connection leaves it and its slots of the ring alone. -/
theorem alike_of_hidden (hs : Alike S i j s t) (hg : Apart S (some i) s a ∧ Occupies i s a)
    (h : step s a = some s') (hsee : sends i s a = none) :
    Alike S i j s' t ∧ enqueuesFor i s a = none := by
  have hother : ∀ v ∈ served s a, v.slot ≠ i := by
    intro v hv hi
    simp [sends, Option.mem_def.1 hv, hi] at hsee
  refine ⟨⟨?_, fun n hn => ?_⟩, ?_⟩
  · cases serves_of_step h with
    | quiet hnone hctx hconns => exact (hconns i).symm.trans hs.rights
    | refused hsome hout hctx hconns => exact (hconns i).symm.trans hs.rights
    | opened hnone ha hfree hctx hconns =>
        rw [hconns, Function.update_of_ne (hg.2.ne_of_free ha hfree)]
        exact hs.rights
    | served hsome hout hself hothers =>
        rw [hothers i (hother _ hsome).symm]
        exact hs.rights
  · rw [hs.ring n hn]
    refine (ring_of_step h fun v hv hwrite => ?_).symm
    have hapart := hg.1 v hv
    rw [if_neg fun hi => hother v hv (Option.some.inj hi).symm] at hapart
    exact hapart n hwrite hn
  · cases hserved : served s a with
    | none => simp [enqueuesFor, hserved]
    | some v => simp [enqueuesFor, hserved, hother v hserved]

/-- The frame that a step of the connection handles. -/
theorem served_of_sends {k : Frame × FrameEnv} (h : sends i s a = some k) :
    ∃ env, served s a = some ⟨i, env, k.1⟩ ∧ env.cleared = k.2 := by
  obtain ⟨v, hv, hk⟩ := Option.bind_eq_some_iff.1 h
  split at hk
  case isFalse => cases hk
  case isTrue hi =>
    cases hk
    exact ⟨v.env, by rw [hv, ← hi], rfl⟩

/-- **The same frame has the same effect in two gateways that treat its connection alike.** -/
theorem alike_of_both (hs : Alike S i j s t) (ha : Apart S (some i) s a)
    (hstep : step s a = some s') (hstep' : step t b = some t') {k : Frame × FrameEnv}
    (hsee : sends i s a = some k) (hsee' : sends j t b = some k) :
    Alike S i j s' t' ∧ enqueuesFor i s a = enqueuesFor j t b := by
  obtain ⟨env, hserved, henv⟩ := served_of_sends hsee
  obtain ⟨env', hserved', henv'⟩ := served_of_sends hsee'
  have hcleared : env.cleared = env'.cleared := henv.trans henv'.symm
  have hapart := ha _ hserved
  rw [if_pos rfl] at hapart
  obtain ⟨hself, hslot⟩ := hapart
  -- both frames ask for the same
  have hrequest : Service.request ⟨j, env', k.1⟩ t = Service.request ⟨i, env, k.1⟩ s := by
    simp only [Service.request, hs.rights.authenticated]
    exact (frameRequest_congr hself hcleared _).symm
  have hemit : enqueuesFor i s a = some (enqueues s a) := by simp [enqueuesFor, hserved]
  have hemit' : enqueuesFor j t b = some (enqueues t b) := by simp [enqueuesFor, hserved']
  rw [hemit, hemit', Option.some.injEq]
  by_cases hmemory : Service.request ⟨i, env, k.1⟩ s = .noMemory
  · obtain ⟨hctx, hrights, hnil⟩ := step_of_noMemory hstep hserved hmemory
    obtain ⟨hctx', hrights', hnil'⟩ := step_of_noMemory hstep' hserved' (hrequest.trans hmemory)
    refine ⟨⟨(hrights.symm.trans hs.rights).trans hrights', fun n hn => ?_⟩, ?_⟩
    · rw [hctx, hctx', hs.ring n hn]
    · rw [hnil, hnil']
  · obtain ⟨c, hout, hrights⟩ := step_of_served hstep hserved hmemory
    obtain ⟨c', hout', hrights'⟩ := step_of_served hstep' hserved' (hrequest ▸ hmemory)
    rw [enqueues_eq hstep hout, enqueues_eq hstep' hout', hrequest]
    rw [Service.outcome, hrequest] at hout'
    obtain ⟨hc, hring, hmessages⟩ :=
      gwServe_congr hcleared hs.rights (fun n hn => hs.ring n (hslot n hn)) hout hout'
    have hafter := hc.after hs.rights.handled k.1
    refine ⟨⟨(hrights.symm.trans hafter).trans hrights', fun n hn => ?_⟩, hmessages.symm⟩
    by_cases hown : n ∈ (Service.request ⟨i, env, k.1⟩ s).slot
    · exact hring n hown
    · -- a slot of the connection that this frame does not refer to
      rw [idemRing_gwServe hout (mt mem_slot_of_mem_writes hown),
        idemRing_gwServe hout' (mt mem_slot_of_mem_writes hown), hs.ring n hn]

/-- **The conditions of the unwinding rule.** -/
theorem unwinds (S : List ℕ) (i j : ℕ) :
    Unwinds (clientObserver S i) (clientObserver S j) (Alike S i j) where
  left hs hg h hsee := alike_of_hidden hs hg h hsee
  right hs hg h hsee :=
    let ⟨hs', hemit⟩ := alike_of_hidden hs.symm hg h hsee
    ⟨hs'.symm, hemit⟩
  both hs ha _ hstep hstep' hsee hsee' := alike_of_both hs ha.1 hstep hstep' hsee hsee'

/-- Until the connection is accepted its slots of the ring are empty. -/
theorem Session.LeftTo.ring_start {maxConns : ℕ} {x : Session maxConns} (h : x.LeftTo S) :
    ∀ n ∈ S, x.start.ctx.idemRing n = 0 := by
  refine run_induction (I := fun s => ∀ n ∈ S, s.ctx.idemRing n = 0) ?_ (fun _ _ => rfl) h.1
    x.reached
  intro s a s' hs hg hstep n hn
  rw [ring_of_step hstep fun v hv hwrite => ?_]
  · exact hs n hn
  · have hapart := hg v hv
    rw [if_neg nofun] at hapart
    exact hapart n hwrite hn

/-- **Clients whose orders have slots of their own do not affect each other.**  In two runs in which
a connection is accepted at the same time and sends the same frames, with the same clock readings,
the same orders and cancels are enqueued for it, whatever the other connections send, as long as the
slots of its orders are left to it and its frames are not read beyond their end. -/
theorem clients_isolated {maxConns : ℕ} {x y : Session maxConns} (hx : x.LeftTo S)
    (hy : y.LeftTo S) (hnow : x.now = y.now) (hframes : x.frames = y.frames) :
    x.messages = y.messages := by
  have hstart : Alike S x.slot y.slot x.start y.start := by
    refine ⟨?_, fun n hn => by rw [hx.ring_start n hn, hy.ring_start n hn]⟩
    rw [x.accepted, y.accepted, hnow]
    exact ⟨rfl, rfl, rfl, rfl⟩
  have hout := (unwinds S x.slot y.slot).observed_eq hstart
    (along_and_iff.2 ⟨hx.2, x.occupied⟩) (along_and_iff.2 ⟨hy.2, y.occupied⟩) hframes
  exact congrArg List.flatten hout

end Isolation

/-- The queue of the order management has room. -/
def QueueHasRoom (_ : Sys) : Act → Prop
  | .frame env => env.pushOk = true
  | _ => True

instance (s : Sys) : (a : Act) → Decidable (QueueHasRoom s a)
  | .frame env => inferInstanceAs (Decidable (env.pushOk = true))
  | .turn .. | .poll _ | .dispatch | .accept _ | .read _ | .finish .. | .idleScan _ =>
      isTrue trivial

/-- The bytes of a key frame and of a `B` frame with an order for the given request id. -/
def tradeBytes (id : UInt8) : List UInt8 :=
  keyBytes ++ [0, 0, 0, 57, ascii 'B', id] ++ List.replicate 15 0 ++ [ascii 'X']
    ++ List.replicate 23 0 ++ [1] ++ List.replicate 11 0

/-- A turn in which the connection in slot `i` sends them. -/
def tradeTurn (i : ℕ) (id : UInt8) : List Act :=
  readTurn i ++ [.read (.data (tradeBytes id) 0), .frame .calm, .frame .calm, .frame .calm] ++
    endTurn

/-- A second client connects and sends an order; then the first client sends an order with the
request id `1`. -/
def rivalRun (id : UInt8) : List Act := acceptTurn 4 ++ tradeTurn 1 id ++ tradeTurn 0 1

/-- The state after the first client connected. -/
def firstConnected : Sys := (run step (btGatewayCreate 2) (acceptTurn 3)).get (by decide)

/-- The session of the first client. -/
def rivalSession (id : UInt8) (h : Along step (Occupies 0) firstConnected (rivalRun id)) :
    Session 2 where
  before := acceptTurn 3
  start := firstConnected
  reached := (Option.some_get _).symm
  slot := 0
  cfd := 3
  now := 0
  accepted := rfl
  during := rivalRun id
  occupied := h

/-- In these runs the first client sends the frames of its bytes, whatever the second one sends. -/
theorem frames_rivalSession {id : UInt8}
    {h : Along step (Occupies 0) firstConnected (rivalRun id)}
    (hmalloc : Along step MallocOk firstConnected (rivalRun id))
    (hend : (run step firstConnected (rivalRun id)).map
      (fun s => ((s.conns 0).received, s.pc.processing)) = some (tradeBytes 1, none)) :
    (rivalSession id h).frames = (decode (tradeBytes 1)).map fun f => (f, .calm) := by
  obtain ⟨t, hrun, ht⟩ := Option.map_eq_some_iff.1 hend
  obtain ⟨hreceived, hpc⟩ := Prod.mk.inj ht
  have hafford : Along step (Affords 0) firstConnected (rivalRun id) :=
    hmalloc.imp fun _ _ h => h.affords 0
  have hframes := handled_of_run (along_and_iff.2 ⟨hafford, h⟩) hrun
  rw [show (firstConnected.conns 0).handled = [] from rfl, List.nil_append] at hframes
  have hstream : Streamed t 0 :=
    run_induction (I := fun s => Streamed s 0) (fun _ _ _ => step_streamed)
      (streamed_of_accepted (show firstConnected.conns 0 = .accepted 3 0 from rfl)) hafford hrun
  have hhandled := hstream.decodesStream.all (by rw [hpc]; nofun)
  have hcalm : ∀ env, Act.frame env ∈ rivalRun id → env = .calm := fun env henv => by
    simpa [rivalRun, acceptTurn, tradeTurn, readTurn, endTurn] using henv
  change observed step (sends 0) firstConnected (rivalRun id) = _
  rw [sends_of_env hcalm, ← hframes, hhandled, hreceived]
  rfl

theorem clients_isolated_other_ids :
    (rivalSession 2 (by decide)).messages = (rivalSession 3 (by decide)).messages :=
  clients_isolated (S := [1]) ⟨by decide, by decide⟩ ⟨by decide, by decide⟩ (by decide)
    (by rw [frames_rivalSession (by decide) (by decide),
      frames_rivalSession (by decide) (by decide)])

/-- **One client suppresses the order of another**: the first client sends the same frames at the
same times, the queue always has room, and its order is enqueued if the second client has used
another request id, and dropped if it has used the same. -/
theorem rival_suppresses_order :
    (rivalSession 1 (by decide)).frames = (rivalSession 2 (by decide)).frames ∧
      (rivalSession 1 (by decide)).now = (rivalSession 2 (by decide)).now ∧
      Along step QueueHasRoom firstConnected (rivalRun 1) ∧
      Along step QueueHasRoom firstConnected (rivalRun 2) ∧
      (rivalSession 1 (by decide)).messages.length = 0 ∧
      (rivalSession 2 (by decide)).messages.length = 1 := by
  refine ⟨?_, by decide, by decide, by decide, by decide, by decide⟩
  rw [frames_rivalSession (by decide) (by decide), frames_rivalSession (by decide) (by decide)]

end Gateway
