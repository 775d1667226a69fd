/-
**Responses go to every authenticated client.**

`gw_drain_responses` pops responses from the matching engine and puts each of them into the send
ring of every open connection that is authenticated; a ring without room drops it.  What is in a
ring leaves it when the client's socket takes it.  Connections come and go meanwhile, slots are
reused, and frames authenticate connections between two responses.

This module follows the responses through whole runs of the thread.  A connection is offered every
response that is popped from the time it authenticates, without a gap; what has been sent to it and
what waits in its ring are the frames of the responses it was offered, in order, except those for
which fewer than 93 bytes of its ring were free; and a connection that has not authenticated is sent
nothing.

Main definitions:

* `Gateway.Feed` — what a connection was offered, since when, and what was delivered to its ring;
* `Gateway.Desk`, `Gateway.deskStep` — the thread, with the responses it has popped and the feeds;
* `Gateway.Followed` — the invariant of a slot;
* `Gateway.KeepsSend` — what every other step does to a connection.

Main results:

* `Gateway.keepsSend_gwProcessRound` — the frames of a client do not touch what it is sent;
* `Gateway.followed_step` — a step keeps the invariant;
* `Gateway.since_of_step` — the feed of an authenticated connection keeps its start;
* `Gateway.responses_fan_out` — **responses go to every authenticated client, in order**.
-/

import AspiraBroker.GatewaySend
import AspiraBroker.GatewaySlots

set_option relaxedAutoImplicit false
set_option autoImplicit false

namespace Gateway

open Ring Transition

/-! ### The feeds -/

/-- The responses that were offered to a connection since it was accepted, those that were delivered
to its ring, how many were lost, and how many the thread had popped when the connection
authenticated, or has popped by now if it has not. -/
structure Feed where
  offered : List OrderResponse
  delivered : List OrderResponse
  lost : ℕ
  since : ℕ

/-- Nothing was offered yet. -/
def Feed.empty (since : ℕ) : Feed := ⟨[], [], 0, since⟩

/-- A response is offered to a ring that has room for it or not. -/
def Feed.offer (f : Feed) (room : Bool) (resp : OrderResponse) : Feed :=
  if room then ⟨f.offered ++ [resp], f.delivered ++ [resp], f.lost, f.since⟩
  else ⟨f.offered ++ [resp], f.delivered, f.lost + 1, f.since⟩

@[simp] theorem Feed.offer_true (f : Feed) (resp : OrderResponse) :
    f.offer true resp = ⟨f.offered ++ [resp], f.delivered ++ [resp], f.lost, f.since⟩ := rfl

@[simp] theorem Feed.offer_false (f : Feed) (resp : OrderResponse) :
    f.offer false resp = ⟨f.offered ++ [resp], f.delivered, f.lost + 1, f.since⟩ := rfl

theorem Feed.since_offer (f : Feed) (room : Bool) (resp : OrderResponse) :
    (f.offer room resp).since = f.since := by
  cases room <;> rfl

/-- The thread, the responses it has popped, and the feeds of the slots. -/
structure Desk where
  sys : Sys
  popped : List OrderResponse
  feed : ℕ → Feed

/-- The gateway after `bt_gateway_create`. -/
def openDesk (maxConns : ℕ) : Desk := ⟨btGatewayCreate maxConns, [], fun _ => .empty 0⟩

/-- The connection is open and authenticated. -/
def Conn.subscribed (c : Conn) : Prop := 0 ≤ c.fd ∧ c.authenticated = true

instance (c : Conn) : Decidable c.subscribed := inferInstanceAs (Decidable (_ ∧ _))

/-- One response is popped: it is offered to the subscribed connections.  It is delivered to those
in whose ring no more than the capacity would wait.  Those that are not authenticated miss it. -/
def Desk.respond (d : Desk) (resp : OrderResponse) : Desk where
  sys := { d.sys with conns := gwBroadcast d.sys.maxConns d.sys.conns resp }
  popped := d.popped ++ [resp]
  feed i :=
    if i < d.sys.maxConns ∧ (d.sys.conns i).subscribed then
      (d.feed i).offer
        (decide ((d.sys.conns i).unsent.length + resp.wire.length ≤ bufCapacity.mask)) resp
    else if (d.sys.conns i).authenticated then d.feed i
    else { d.feed i with since := d.popped.length + 1 }

/-- One step of the thread; a slot that is reused starts a new feed. -/
def deskStep (d : Desk) (a : Act) : Option Desk :=
  (step d.sys a).map fun s =>
    match a with
    | .turn true resps => { resps.foldl Desk.respond d with sys := s }
    | .accept (.conn _ true _) =>
        match gwFindFreeSlot d.sys with
        | none => { d with sys := s }
        | some i => { d with sys := s, feed := Function.update d.feed i (.empty d.popped.length) }
    | _ => { d with sys := s }

/-! ### What the other steps do to a connection -/

/-- What was put into the ring stays what it is, an authenticated connection stays one, and none is
opened. -/
structure KeepsSend (c c' : Conn) : Prop where
  outgoing : ∀ bs, Outgoing c bs → Outgoing c' bs
  authenticated : c.authenticated = true → c'.authenticated = true
  fd : 0 ≤ c'.fd → 0 ≤ c.fd

section KeepsSend

variable {c c' c'' : Conn}

theorem KeepsSend.refl (c : Conn) : KeepsSend c c := ⟨fun _ h => h, id, id⟩

theorem KeepsSend.trans (h : KeepsSend c c') (h' : KeepsSend c' c'') : KeepsSend c c'' :=
  ⟨fun bs hbs => h'.outgoing bs (h.outgoing bs hbs), h'.authenticated ∘ h.authenticated,
    h.fd ∘ h'.fd⟩

theorem keepsSend_closing (c : Conn) : KeepsSend c { c with state := .closing } :=
  ⟨fun _ h => h.congr rfl rfl rfl rfl, id, id⟩

theorem keepsSend_store (c : Conn) (bytes : List UInt8) (now : UInt64) :
    KeepsSend c (c.store bytes now) :=
  ⟨fun _ h => h.congr rfl rfl rfl rfl, id, id⟩

theorem keepsSend_closed (c : Conn) : KeepsSend c { c with fd := -1 } :=
  ⟨fun _ h => h.congr rfl rfl rfl rfl, id, fun h => by cases h⟩

theorem keepsSend_register (c : Conn) : KeepsSend c c.register := by
  unfold Conn.register
  split
  · exact ⟨fun _ h => h.congr rfl rfl rfl rfl, id, id⟩
  · split
    · exact ⟨fun _ h => h.congr rfl rfl rfl rfl, id, id⟩
    · exact .refl c

theorem keepsSend_gwFlushSend {rs : List SendResult} (h : gwFlushSend rs c = some c') :
    KeepsSend c c' := by
  have hsend := sendOnly_gwFlushSend h
  exact ⟨fun _ hbs => outgoing_gwFlushSend hbs h, fun ha => hsend.stream.authenticated.trans ha,
    fun hfd => hsend.fd ▸ hfd⟩

theorem keepsSend_gwFinish {flags : Flags} {outs : List SendResult}
    (h : gwFinish flags outs c = some c') : KeepsSend c c' := by
  obtain ⟨c₁, hflush, rfl⟩ := Option.map_eq_some_iff.1 h
  have hflushed : KeepsSend c c₁ := by
    split at hflush
    · exact keepsSend_gwFlushSend hflush
    · exact Option.some.inj hflush ▸ .refl c
  exact hflushed.trans (keepsSend_register c₁)

theorem keepsSend_rateWindow (c : Conn) (now : UInt64) : KeepsSend c (c.rateWindow now) := by
  unfold Conn.rateWindow
  split
  · exact ⟨fun _ h => h.congr rfl rfl rfl rfl, id, id⟩
  · exact .refl c

theorem keepsSend_gwPushOrder (env : FrameEnv) (g : Ctx) (c : Conn) (req : OrderRequest) :
    KeepsSend c (gwPushOrder env g c req).2 := by
  have hwindow := keepsSend_rateWindow c env.now
  have haccept : ∀ g₀, KeepsSend c (gwAcceptOrder env g₀ (c.rateWindow env.now) req).2 :=
    fun g₀ => hwindow.trans ⟨fun _ h => h.congr rfl rfl rfl rfl, id, id⟩
  simp only [gwPushOrder]
  split
  · split
    · split
      · exact hwindow
      · exact haccept _
    · exact haccept g
  · exact hwindow

theorem keepsSend_gwHandle {env : FrameEnv} {g g' : Ctx} {f : Frame}
    (h : gwHandle env g c f = some (g', c')) : KeepsSend c c' := by
  rw [gwHandle_eq] at h
  cases hreq : frameRequest env c.authenticated f with
  | noMemory => simp [hreq, gwServe] at h
  | skip | cancel =>
      rw [hreq] at h
      cases h
      exact .refl c
  | auth =>
      rw [hreq] at h
      cases h
      exact ⟨fun _ h => h.congr rfl rfl rfl rfl, fun _ => rfl, id⟩
  | order req =>
      rw [hreq, gwServe] at h
      have hpush := keepsSend_gwPushOrder env g c req
      rwa [Option.some.inj h] at hpush

/-- **The frames of a client do not touch what it is sent.** -/
theorem keepsSend_gwProcessRound (env : FrameEnv) (g : Ctx) (c : Conn) :
    KeepsSend c (gwProcessRound env g c).2.1 := by
  by_cases hcomplete : c.Complete
  · cases hhandle : gwHandle env g c c.front with
    | none =>
        rw [gwProcessRound_of_noMemory hcomplete hhandle]
        exact keepsSend_closing c
    | some r =>
        rw [gwProcessRound_of_complete hcomplete hhandle]
        exact (keepsSend_gwHandle hhandle).trans ⟨fun _ h => h.congr rfl rfl rfl rfl, id, id⟩
  · have hround := round_of_gwProcessRound env g c
    generalize (gwProcessRound env g c).1 = g₁, (gwProcessRound env g c).2.1 = c₁,
      (gwProcessRound env g c).2.2 = on at hround ⊢
    cases hround with
    | short | incomplete => exact .refl c
    | badLength | noMemory => exact keepsSend_closing c
    | frame hfront => exact absurd hfront hcomplete

end KeepsSend

/-! ### The invariant -/

/-- What is known of a slot: its feed, and what of it was sent. -/
structure Followed (popped : List OrderResponse) (maxConns i : ℕ) (c : Conn) (f : Feed) :
    Prop where
  outgoing : Outgoing c (wires f.delivered)
  sublist : f.delivered.Sublist f.offered
  counted : f.delivered.length + f.lost = f.offered.length
  anonymous : c.authenticated = false → f.offered = [] ∧ f.since = popped.length
  since_le : f.since ≤ popped.length
  recent : c.subscribed → f.offered = popped.drop f.since
  inside : 0 ≤ c.fd → i < maxConns

section Invariant

variable {popped : List OrderResponse} {maxConns i : ℕ} {c c' : Conn} {f : Feed}

/-- A step that offers nothing. -/
theorem Followed.keeps (h : Followed popped maxConns i c f) (hkeep : KeepsSend c c') :
    Followed popped maxConns i c' f where
  outgoing := hkeep.outgoing _ h.outgoing
  sublist := h.sublist
  counted := h.counted
  anonymous hanon := by
    refine h.anonymous (Bool.eq_false_iff.2 fun hauth => ?_)
    rw [hkeep.authenticated hauth] at hanon
    cases hanon
  since_le := h.since_le
  recent hsub := by
    cases hauth : c.authenticated with
    | true => exact h.recent ⟨hkeep.fd hsub.1, hauth⟩
    | false =>
        -- the step authenticates the connection, and all that was popped so far is lost to it
        obtain ⟨hnone, hsince⟩ := h.anonymous hauth
        rw [hnone, hsince, List.drop_length]
  inside hfd := h.inside (hkeep.fd hfd)

theorem followed_accepted (popped : List OrderResponse) (hi : i < maxConns) (cfd : ℕ)
    (now : UInt64) :
    Followed popped maxConns i (.accepted cfd now) (.empty popped.length) where
  outgoing := outgoing_accepted cfd now
  sublist := .refl _
  counted := rfl
  anonymous _ := ⟨rfl, rfl⟩
  since_le := le_rfl
  recent _ := List.drop_length.symm
  inside _ := hi

/-- The test of the code is the one for the bytes that wait. -/
theorem hasRoom_eq {bs : List UInt8} (h : Outgoing c bs) (resp : OrderResponse) :
    c.hasRoom = decide (c.unsent.length + resp.wire.length ≤ bufCapacity.mask) := by
  have hlen := length_wire resp
  have hunsent := h.length_unsent
  have hroom := h.room
  have hmask := bufCapacity.mask_add_one
  rw [Conn.hasRoom, gwRingWritable, h.readable_eq, decide_eq_decide]
  omega

theorem wires_concat (resps : List OrderResponse) (resp : OrderResponse) :
    wires (resps ++ [resp]) = wires resps ++ resp.wire := by
  simp [wires]

/-- A response is offered to a subscribed connection. -/
theorem Followed.offer (h : Followed popped maxConns i c f) (hsub : c.subscribed)
    (resp : OrderResponse) :
    Followed (popped ++ [resp]) maxConns i (gwSendToConn c resp)
      (f.offer (decide (c.unsent.length + resp.wire.length ≤ bufCapacity.mask)) resp) := by
  have hsend := sendOnly_gwSendToConn c resp
  have hauth : (gwSendToConn c resp).authenticated = true :=
    hsend.stream.authenticated.trans hsub.2
  have hrecent : f.offered ++ [resp] = (popped ++ [resp]).drop f.since := by
    rw [List.drop_append_of_le_length h.since_le, h.recent hsub]
  have hsince : f.since ≤ (popped ++ [resp]).length := by
    rw [List.length_append]
    exact Nat.le_add_right_of_le h.since_le
  have hinside : 0 ≤ (gwSendToConn c resp).fd → i < maxConns := fun _ => h.inside hsub.1
  have hcount := h.counted
  rw [← hasRoom_eq h.outgoing resp]
  cases hroom : c.hasRoom with
  | true =>
      refine ⟨?_, h.sublist.append (.refl _), ?_, fun hanon => ?_, hsince, fun _ => hrecent,
        hinside⟩
      · change Outgoing _ (wires (f.delivered ++ [resp]))
        rw [wires_concat]
        exact outgoing_gwSendToConn h.outgoing hroom resp
      · simp only [Feed.offer_true, List.length_append, List.length_singleton]
        omega
      · rw [hauth] at hanon
        cases hanon
  | false =>
      refine ⟨?_, h.sublist.trans (List.sublist_append_left _ _), ?_, fun hanon => ?_, hsince,
        fun _ => hrecent, hinside⟩
      · rw [gwSendToConn_of_full hroom]
        exact h.outgoing
      · simp only [Feed.offer_false, List.length_append, List.length_singleton]
        omega
      · rw [hauth] at hanon
        cases hanon

/-- A response is popped and the slot is not subscribed. -/
theorem Followed.pass (h : Followed popped maxConns i c f)
    (hnot : ¬ (i < maxConns ∧ c.subscribed)) (resp : OrderResponse) :
    Followed (popped ++ [resp]) maxConns i c
      (if c.authenticated then f else { f with since := popped.length + 1 }) := by
  have hlen : (popped ++ [resp]).length = popped.length + 1 := List.length_append
  cases hauth : c.authenticated with
  | true =>
      rw [if_pos rfl]
      refine { h with anonymous := ?_, since_le := ?_, recent := ?_ }
      · exact fun hanon => absurd (hauth.symm.trans hanon) Bool.noConfusion
      · rw [hlen]
        exact Nat.le_succ_of_le h.since_le
      · exact fun hsub => absurd ⟨h.inside hsub.1, hsub⟩ hnot
  | false =>
      rw [if_neg Bool.false_ne_true]
      refine { h with anonymous := ?_, since_le := ?_, recent := ?_ }
      · exact fun _ => ⟨(h.anonymous hauth).1, hlen.symm⟩
      · exact hlen.ge
      · exact fun hsub => absurd (hauth.symm.trans hsub.2) Bool.false_ne_true

end Invariant

/-! ### The steps -/

/-- What is known of all slots. -/
def Desk.Followed (d : Desk) : Prop :=
  ∀ i, Gateway.Followed d.popped d.sys.maxConns i (d.sys.conns i) (d.feed i)

section Steps

variable {d d' : Desk} {s : Sys}

theorem followed_openDesk (maxConns : ℕ) : (openDesk maxConns).Followed := fun _ => {
  outgoing := outgoing_blank _
  sublist := .refl _
  counted := rfl
  anonymous := fun _ => ⟨rfl, rfl⟩
  since_le := le_rfl
  recent := fun _ => rfl
  inside := fun h => by cases h }

/-- One response goes to the subscribed connections. -/
theorem followed_respond (h : d.Followed) (resp : OrderResponse) : (d.respond resp).Followed := by
  intro i
  by_cases hsub : i < d.sys.maxConns ∧ (d.sys.conns i).subscribed
  · have hconn : (d.respond resp).sys.conns i = gwSendToConn (d.sys.conns i) resp := if_pos hsub
    have hfeed : (d.respond resp).feed i = _ := if_pos hsub
    rw [hconn, hfeed]
    exact (h i).offer hsub.2 resp
  · have hconn : (d.respond resp).sys.conns i = d.sys.conns i := if_neg hsub
    have hfeed : (d.respond resp).feed i = _ := if_neg hsub
    rw [hconn, hfeed]
    exact (h i).pass hsub resp

theorem sys_foldl_respond (resps : List OrderResponse) (d : Desk) :
    (resps.foldl Desk.respond d).sys =
      { d.sys with conns := gwDrainResponses d.sys.maxConns d.sys.conns resps } := by
  induction resps generalizing d with
  | nil => rfl
  | cons resp resps ih => exact ih (d.respond resp)

theorem followed_foldl_respond (h : d.Followed) (resps : List OrderResponse) :
    (resps.foldl Desk.respond d).Followed := by
  induction resps generalizing d with
  | nil => exact h
  | cons resp resps ih => exact ih (followed_respond h resp)

/-- A step that offers nothing and opens nothing. -/
theorem Desk.Followed.keeps (h : d.Followed) (hmax : s.maxConns = d.sys.maxConns)
    (hkeep : ∀ i, KeepsSend (d.sys.conns i) (s.conns i)) : { d with sys := s }.Followed := by
  intro i
  change Gateway.Followed d.popped s.maxConns i (s.conns i) (d.feed i)
  rw [hmax]
  exact (h i).keeps (hkeep i)

/-- What every step does but the drain and an accept that succeeds. -/
theorem keepsSend_of_step {s s' : Sys} {a : Act} (h : step s a = some s')
    (hturn : ∀ resps, a ≠ .turn true resps)
    (haccept : ∀ cfd now, a = .accept (.conn cfd true now) → gwFindFreeSlot s = none) :
    s'.maxConns = s.maxConns ∧ ∀ i, KeepsSend (s.conns i) (s'.conns i) := by
  cases steps_of_step h with
  | turn hpc => exact absurd rfl (hturn _)
  | accept hpc hfree =>
      rw [haccept _ _ rfl] at hfree
      cases hfree
  | stop | interrupted | pollError | poll | acceptEnd | refuse | readEnd =>
      exact ⟨rfl, fun i => .refl _⟩
  | @dispatch ev rest hpc =>
      cases ev with
      | listen epollIn => exact ⟨rfl, fun i => .refl _⟩
      | conn i flags =>
          refine ⟨rfl, rel_update .refl ?_⟩
          split
          · exact keepsSend_closing _
          · exact .refl _
  | data hpc hpos hroom => exact ⟨rfl, rel_update .refl (keepsSend_store _ _ _)⟩
  | hangup hpc _ => exact ⟨rfl, rel_update .refl (keepsSend_closing _)⟩
  | frame hpc => exact ⟨rfl, rel_update .refl (keepsSend_gwProcessRound _ _ _)⟩
  | keepOpen hpc hfinish _ => exact ⟨rfl, rel_update .refl (keepsSend_gwFinish hfinish)⟩
  | close hpc hfinish _ hflush =>
      refine ⟨rfl, rel_update .refl ?_⟩
      exact ((keepsSend_gwFinish hfinish).trans (keepsSend_gwFlushSend hflush)).trans
        (keepsSend_closed _)
  | idleScan hpc =>
      refine ⟨rfl, fun i => ?_⟩
      change KeepsSend _ (idleScan _ _ _ i)
      unfold idleScan
      split
      · exact keepsSend_closing _
      · exact .refl _

/-- A slot is opened, with a new feed. -/
theorem followed_accept (h : d.Followed) {i cfd : ℕ} {now : UInt64}
    (hs : step d.sys (.accept (.conn cfd true now)) = some s)
    (hfree : gwFindFreeSlot d.sys = some i) :
    { d with
      sys := s, feed := Function.update d.feed i (.empty d.popped.length) : Desk }.Followed := by
  cases steps_of_step hs with
  | refuse hpc hno =>
      rcases hno with hno | hno
      · rw [hno] at hfree
        cases hfree
      · cases hno
  | @accept j cfd now rest hpc hfree' =>
      obtain rfl : i = j := Option.some.inj (hfree.symm.trans hfree')
      have hi : i < d.sys.maxConns := (gwFindFreeSlot_eq_some hfree).1
      intro j
      rcases eq_or_ne j i with rfl | hne
      · simpa [Sys.put] using followed_accepted d.popped hi cfd now
      · simpa [Sys.put, Function.update_of_ne hne] using h j

/-- **A step keeps the invariant.** -/
theorem followed_step {a : Act} (h : d.Followed) (hstep : deskStep d a = some d') :
    d'.Followed := by
  obtain ⟨s, hs, rfl⟩ := Option.map_eq_some_iff.1 hstep
  have quiet : (∀ resps, a ≠ .turn true resps) →
      (∀ cfd now, a = .accept (.conn cfd true now) → gwFindFreeSlot d.sys = none) →
      { d with sys := s }.Followed := by
    intro hturn haccept
    obtain ⟨hmax, hkeep⟩ := keepsSend_of_step hs hturn haccept
    exact h.keeps hmax hkeep
  cases a with
  | turn running resps =>
      cases running with
      | true =>
          have hfold := followed_foldl_respond h resps
          cases steps_of_step hs
          intro i
          have hi := hfold i
          rw [sys_foldl_respond] at hi
          exact hi
      | false => exact quiet (by simp) (by simp)
  | accept r =>
      cases r with
      | none => exact quiet (by simp) (by simp)
      | conn cfd epollOk now =>
          cases epollOk with
          | false => exact quiet (by simp) (by simp)
          | true =>
              cases hfree : gwFindFreeSlot d.sys with
              | none => exact quiet (by simp) fun _ _ _ => hfree
              | some i =>
                  exact followed_accept h hs hfree
  | poll | dispatch | read | frame | finish | idleScan => exact quiet (by simp) (by simp)

/-- The responses of a turn do not move the start of the feed of an authenticated connection. -/
theorem since_foldl_respond (resps : List OrderResponse) {i : ℕ}
    (hauth : (d.sys.conns i).authenticated = true) :
    ((resps.foldl Desk.respond d).feed i).since = (d.feed i).since := by
  induction resps generalizing d with
  | nil => rfl
  | cons resp resps ih =>
      have hstays : ((d.respond resp).sys.conns i).authenticated = true :=
        (sendOnly_gwDrainResponses _ d.sys.conns [resp] i).stream.authenticated.trans hauth
      have hfeed : ((d.respond resp).feed i).since = (d.feed i).since := by
        change (if _ then _ else if _ then _ else _ : Feed).since = _
        rw [if_pos hauth]
        split
        · exact Feed.since_offer _ _ _
        · rfl
      rw [List.foldl_cons, ih hstays, hfeed]

/-- **The feed of an authenticated connection keeps its start**, as long as the slot is not
reused. -/
theorem since_of_step {a : Act} {i : ℕ} (hstep : deskStep d a = some d')
    (hauth : (d.sys.conns i).authenticated = true)
    (hkept : ∀ cfd now, a = .accept (.conn cfd true now) → gwFindFreeSlot d.sys ≠ some i) :
    (d'.feed i).since = (d.feed i).since := by
  obtain ⟨s, hs, rfl⟩ := Option.map_eq_some_iff.1 hstep
  cases a with
  | turn running resps =>
      cases running with
      | true => exact since_foldl_respond resps hauth
      | false => rfl
  | accept r =>
      cases r with
      | none => rfl
      | conn cfd epollOk now =>
          cases epollOk with
          | false => rfl
          | true =>
              cases hfree : gwFindFreeSlot d.sys with
              | none => rfl
              | some j =>
                  have hij : i ≠ j := by
                    rintro rfl
                    exact hkept cfd now rfl hfree
                  exact congrArg Feed.since (Function.update_of_ne hij _ _)
  | poll | dispatch | read | frame | finish | idleScan => rfl

end Steps

/-- **Responses go to every authenticated client, in order.**  Throughout every run of the gateway
thread, and for every slot: what was sent and what waits in the ring are the frames of the responses
that were delivered; those are the offered ones without the lost ones; a connection that is open and
authenticated was offered all responses that were popped since it authenticated; and one that is not
authenticated was offered none.  Until it authenticates, its feed starts at the next response; by
`Gateway.since_of_step` the start is fixed from then on. -/
theorem responses_fan_out (maxConns : ℕ) (acts : List Act) :
    Throughout deskStep
      (fun d => ∀ i,
        (d.sys.conns i).sent ++ (d.sys.conns i).unsent = wires (d.feed i).delivered ∧
        (d.feed i).delivered.Sublist (d.feed i).offered ∧
        (d.feed i).delivered.length + (d.feed i).lost = (d.feed i).offered.length ∧
        ((d.sys.conns i).subscribed → (d.feed i).offered = d.popped.drop (d.feed i).since) ∧
        ((d.sys.conns i).authenticated = false →
          (d.feed i).offered = [] ∧ (d.feed i).since = d.popped.length))
      (openDesk maxConns) acts :=
  throughout_of_invariant (G := fun _ _ => True) (I := Desk.Followed)
    (fun _ _ _ h _ => followed_step h)
    (fun _ h i => ⟨(h i).outgoing.sent_append_unsent, (h i).sublist, (h i).counted, (h i).recent,
      (h i).anonymous⟩)
    (followed_openDesk maxConns) (along_of_forall (fun _ _ => trivial) _ acts)

end Gateway
