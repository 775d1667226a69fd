/-
**What holds when the gateway thread waits.**

At the head of its loop the thread hands the responses of the matching engine to the connections and
then waits in `epoll_wait`.  Two things should hold at that moment.  A connection with something to
send should have `EPOLLOUT` registered, or nothing will tell the thread to send it; and a connection
that is marked as closing should have been closed, or it keeps its slot.

Both are seen to only at the end of an event of the connection.  Responses, however, are put into
the send rings right before the wait, and the scan for idle connections marks them after the events
were handled, so neither holds in general.  This module says exactly when they do.

Main definitions:

* `Gateway.WakesUp` — whoever has something to send is registered for it when the thread waits;
* `Gateway.AllRegistered` — responses are handed out only while every receiver is registered;
* `Gateway.NoneClosing` — no open slot is marked as closing when the thread waits;
* `Gateway.NoneIdle` — the scan for idle connections finds none.

Main results:

* `Gateway.step_armed`, `Gateway.step_settled` — the invariants are kept;
* `Gateway.wakesUp_iff` — **no response waits without a wake-up exactly when responses come only
  while every receiver is registered already**;
* `Gateway.noneClosing_iff` — **no timed-out connection keeps its slot exactly when there is none**.
-/

import AspiraBroker.GatewayAuth
import AspiraBroker.GatewaySend
import AspiraBroker.GatewaySlots

set_option relaxedAutoImplicit false
set_option autoImplicit false

namespace Gateway

open Ring Transition

/-- The thread is about to call `epoll_wait`. -/
def Pc.waits : Pc → Bool
  | .wait => true
  | _ => false

/-! ### Handing out the responses -/

theorem gwSendToConn_keeps (c : Conn) (resp : OrderResponse) :
    (gwSendToConn c resp).state = c.state ∧ (gwSendToConn c resp).sendPending = c.sendPending := by
  unfold gwSendToConn
  split
  · exact ⟨rfl, rfl⟩
  · exact ⟨rfl, rfl⟩

theorem foldl_gwSendToConn_keeps (c : Conn) (resps : List OrderResponse) :
    (resps.foldl gwSendToConn c).state = c.state ∧
      (resps.foldl gwSendToConn c).sendPending = c.sendPending := by
  induction resps generalizing c with
  | nil => exact ⟨rfl, rfl⟩
  | cons resp resps ih =>
      obtain ⟨hstate, hpending⟩ := gwSendToConn_keeps c resp
      rw [List.foldl_cons, (ih _).1, (ih _).2]
      exact ⟨hstate, hpending⟩

/-- Every open authenticated connection gets all responses. -/
theorem gwDrainResponses_apply (maxConns : ℕ) (conns : ℕ → Conn) (resps : List OrderResponse)
    (j : ℕ) :
    gwDrainResponses maxConns conns resps j =
      if j < maxConns ∧ 0 ≤ (conns j).fd ∧ (conns j).authenticated = true then
        resps.foldl gwSendToConn (conns j)
      else conns j := by
  induction resps generalizing conns with
  | nil =>
      split
      · rfl
      · rfl
  | cons resp resps ih =>
      have hone := sendOnly_gwSendToConn (conns j) resp
      change gwDrainResponses maxConns (gwBroadcast maxConns conns resp) resps j = _
      by_cases hto : j < maxConns ∧ 0 ≤ (conns j).fd ∧ (conns j).authenticated = true
      · have hsent : gwBroadcast maxConns conns resp j = gwSendToConn (conns j) resp := if_pos hto
        rw [ih, hsent, if_pos (by rw [hone.fd, hone.stream.authenticated]; exact hto), if_pos hto,
          List.foldl_cons]
      · have hsame : gwBroadcast maxConns conns resp j = conns j := if_neg hto
        rw [ih, hsame, if_neg hto, if_neg hto]

/-! ### Responses and wake-ups -/

/-- There is something to send. -/
def Conn.hasUnsent (c : Conn) : Prop := c.sendHead ≠ c.sendTail

instance (c : Conn) : Decidable c.hasUnsent := inferInstanceAs (Decidable (_ ≠ _))

/-- Whenever the thread waits, every open connection with something to send has `EPOLLOUT`
registered. -/
def WakesUp (s : Sys) : Prop :=
  s.pc.waits = true → ∀ i < s.maxConns, 0 ≤ (s.conns i).fd → (s.conns i).hasUnsent →
    (s.conns i).sendPending = true

/-- Responses are handed out only while every open authenticated connection has `EPOLLOUT`
registered. -/
def AllRegistered (s : Sys) (a : Act) : Prop :=
  match s.pc, a with
  | .top, .turn true (_ :: _) =>
      ∀ i < s.maxConns, 0 ≤ (s.conns i).fd → (s.conns i).authenticated = true →
        (s.conns i).sendPending = true
  | _, _ => True

/-- The send ring is in order, and on an open connection `EPOLLOUT` is registered exactly when there
is something to send. -/
structure Armed (c : Conn) : Prop where
  outgoing : ∃ bs, Outgoing c bs
  registered : 0 ≤ c.fd → (c.sendPending = true ↔ c.hasUnsent)

theorem Armed.congr {c c' : Conn} (h : Armed c) (hsame : SameSocket c c') : Armed c' where
  outgoing := by
    obtain ⟨bs, hbs⟩ := h.outgoing
    exact ⟨bs, hbs.congr hsame.sendBuf hsame.sendHead hsame.sendTail hsame.sent⟩
  registered := by
    rw [hsame.fd, hsame.sendPending, Conn.hasUnsent, hsame.sendHead, hsame.sendTail]
    exact h.registered

theorem armed_blank (fd : ℤ) : Armed (.blank fd) :=
  ⟨⟨[], outgoing_blank fd⟩, fun _ => by simp [Conn.blank, Conn.hasUnsent]⟩

theorem armed_accepted (cfd : ℕ) (now : UInt64) : Armed (.accepted cfd now) :=
  (armed_blank cfd).congr ⟨rfl, rfl, rfl, rfl, rfl, rfl⟩

/-- After a response there is something to send: the response itself, or what has left no room for
it. -/
theorem outgoing_send {c : Conn} (h : ∃ bs, Outgoing c bs) (resp : OrderResponse) :
    (∃ bs, Outgoing (gwSendToConn c resp) bs) ∧ (gwSendToConn c resp).hasUnsent := by
  obtain ⟨bs, hbs⟩ := h
  have hle := hbs.le
  cases hroom : c.hasRoom with
  | true =>
      have hsent := outgoing_gwSendToConn hbs hroom resp
      have hsame : (gwSendToConn c resp).sent = c.sent := by
        unfold gwSendToConn
        split
        · rfl
        · rfl
      refine ⟨⟨_, hsent⟩, fun hempty => ?_⟩
      have hall := hsent.empty_iff.1 hempty
      rw [hsame, List.length_append, length_wire] at hall
      omega
  | false =>
      rw [gwSendToConn_of_full hroom]
      refine ⟨⟨bs, hbs⟩, fun hempty => ?_⟩
      have hall := hbs.empty_iff.1 hempty
      -- an empty ring has room for a response
      rw [Conn.hasRoom, decide_eq_false_iff_not, gwRingWritable, hbs.readable_eq, hall,
        Nat.sub_self] at hroom
      exact hroom (by decide)

/-- Responses that are handed out leave something to send. -/
theorem outgoing_foldl {c : Conn} (h : ∃ bs, Outgoing c bs) (resps : List OrderResponse)
    (hsome : resps ≠ [] ∨ c.hasUnsent) :
    (∃ bs, Outgoing (resps.foldl gwSendToConn c) bs) ∧
      (resps.foldl gwSendToConn c).hasUnsent := by
  induction resps generalizing c with
  | nil => exact ⟨h, hsome.resolve_left fun hne => hne rfl⟩
  | cons resp resps ih =>
      obtain ⟨hout, hunsent⟩ := outgoing_send h resp
      exact ih hout (.inr hunsent)

/-- What `gw_drain_responses` does to a connection that is registered if there is anything to hand
out. -/
theorem armed_gwDrainResponses {maxConns : ℕ} {conns : ℕ → Conn} {resps : List OrderResponse}
    {j : ℕ} (h : Armed (conns j))
    (hreg : resps ≠ [] → j < maxConns → 0 ≤ (conns j).fd → (conns j).authenticated = true →
      (conns j).sendPending = true) : Armed (gwDrainResponses maxConns conns resps j) := by
  rw [gwDrainResponses_apply]
  split
  case isFalse => exact h
  case isTrue hto =>
    cases resps with
    | nil => exact h
    | cons resp resps =>
        obtain ⟨hmax, hopen, hauth⟩ := hto
        have hpending := hreg (List.cons_ne_nil _ _) hmax hopen hauth
        obtain ⟨hout, hunsent⟩ := outgoing_foldl h.outgoing (resp :: resps) (.inl (by simp))
        have hkeeps := foldl_gwSendToConn_keeps (conns j) (resp :: resps)
        exact ⟨hout, fun _ => iff_of_true (hkeeps.2.trans hpending) hunsent⟩

/-- At the end of an event `EPOLLOUT` is registered or taken back as needed. -/
theorem armed_gwFinish {flags : Flags} {outs : List SendResult} {c c' : Conn} (h : Armed c)
    (hfinish : gwFinish flags outs c = some c') : Armed c' := by
  obtain ⟨c₁, hflush, rfl⟩ := Option.map_eq_some_iff.1 hfinish
  obtain ⟨bs, hbs⟩ := h.outgoing
  have hbs₁ : Outgoing c₁ bs := by
    split at hflush
    · exact outgoing_gwFlushSend hbs hflush
    · exact Option.some.inj hflush ▸ hbs
  unfold Conn.register
  split
  case isTrue hon =>
    exact ⟨⟨bs, hbs₁.congr rfl rfl rfl rfl⟩, fun _ => iff_of_true rfl hon.1⟩
  case isFalse hoff =>
    split
    case isTrue hempty =>
      exact ⟨⟨bs, hbs₁.congr rfl rfl rfl rfl⟩,
        fun _ => iff_of_false Bool.false_ne_true fun hne => hne hempty.1⟩
    case isFalse hkeep =>
      refine ⟨⟨bs, hbs₁⟩, fun _ => ?_⟩
      cases hpending : c₁.sendPending with
      | true =>
          refine iff_of_true rfl fun hempty => hkeep ⟨hempty, hpending⟩
      | false =>
          refine iff_of_false Bool.false_ne_true fun hne => hoff ⟨hne, hpending⟩

theorem sameSocket_idleScan (maxConns : ℕ) (conns : ℕ → Conn) (now : UInt64) (j : ℕ) :
    SameSocket (conns j) (idleScan maxConns conns now j) := by
  unfold idleScan
  split
  · exact sameSocket_closing _
  · exact .refl _

/-- **Every connection stays in order**, as long as responses are handed out only while every
receiver is registered. -/
theorem step_armed {s s' : Sys} {a : Act} (hs : ∀ j, Armed (s.conns j)) (hg : AllRegistered s a)
    (h : step s a = some s') : ∀ j, Armed (s'.conns j) := by
  cases steps_of_step h with
  | @turn resps hpc =>
      intro j
      refine armed_gwDrainResponses (hs j) fun hne hmax hopen hauth => ?_
      cases resps with
      | nil => exact absurd rfl hne
      | cons resp resps =>
          simp only [AllRegistered, hpc] at hg
          exact hg j hmax hopen hauth
  | @dispatch ev rest hpc =>
      cases ev with
      | listen epollIn => exact hs
      | conn i flags =>
          refine all_update hs ((hs i).congr ?_)
          split
          · exact sameSocket_closing _
          · exact .refl _
  | accept hpc hfree => exact all_update hs (armed_accepted _ _)
  | data hpc hpos hroom => exact all_update hs ((hs _).congr (sameSocket_store _ _ _))
  | hangup hpc hr => exact all_update hs ((hs _).congr (sameSocket_closing _))
  | frame hpc => exact all_update hs ((hs _).congr (sameSocket_gwProcessRound _ _ _).1)
  | keepOpen hpc hfinish hstate => exact all_update hs (armed_gwFinish (hs _) hfinish)
  | close hpc hfinish hstate hflush =>
      obtain ⟨bs, hbs⟩ := (armed_gwFinish (hs _) hfinish).outgoing
      have hout := outgoing_gwFlushSend hbs hflush
      exact all_update hs ⟨⟨bs, hout.congr rfl rfl rfl rfl⟩,
        fun hopen => absurd hopen (show ¬ (0 : ℤ) ≤ -1 by decide)⟩
  | idleScan hpc => exact fun j => (hs j).congr (sameSocket_idleScan _ _ _ j)
  | stop hpc | interrupted hpc | pollError hpc | poll hpc _ | acceptEnd hpc | refuse hpc _
  | readEnd hpc _ => exact hs

/-- Without the registration, a response waits in a ring that nobody is woken up for. -/
theorem allRegistered_of_wakesUp {s : Sys} {a : Act} (hs : ∀ j, Armed (s.conns j))
    (hwake : ∀ s', step s a = some s' → WakesUp s') : AllRegistered s a := by
  unfold AllRegistered
  split
  case h_2 => trivial
  case h_1 resp resps hpc =>
    intro i hmax hopen hauth
    have hstep : step s (.turn true (resp :: resps)) = some { s with
        conns := gwDrainResponses s.maxConns s.conns (resp :: resps)
        pc := .wait } := by
      simp [step, hpc]
    have hconn : gwDrainResponses s.maxConns s.conns (resp :: resps) i =
        (resp :: resps).foldl gwSendToConn (s.conns i) := by
      rw [gwDrainResponses_apply, if_pos ⟨hmax, hopen, hauth⟩]
    have hopen' : 0 ≤ (gwDrainResponses s.maxConns s.conns (resp :: resps) i).fd := by
      rw [(sendOnly_gwDrainResponses s.maxConns s.conns (resp :: resps) i).fd]
      exact hopen
    have hunsent : (gwDrainResponses s.maxConns s.conns (resp :: resps) i).hasUnsent := by
      rw [hconn]
      exact (outgoing_foldl (hs i).outgoing _ (.inl (List.cons_ne_nil _ _))).2
    have hpending := hwake _ hstep rfl i hmax hopen' hunsent
    rw [← (foldl_gwSendToConn_keeps (s.conns i) (resp :: resps)).2, ← hconn]
    exact hpending

/-- **No response waits without a wake-up** exactly in the runs in which responses are handed out
only while every receiver has `EPOLLOUT` registered already. -/
theorem wakesUp_iff (maxConns : ℕ) (as : List Act) :
    Throughout step WakesUp (btGatewayCreate maxConns) as ↔
      Along step AllRegistered (btGatewayCreate maxConns) as :=
  throughout_iff_of_invariant (I := fun s => ∀ j, Armed (s.conns j))
    (fun _ _ _ hs hg h => step_armed hs hg h)
    (fun _ hs _ i _ hopen hunsent => ((hs i).registered hopen).2 hunsent)
    (fun _ _ hs hwake => allRegistered_of_wakesUp hs hwake) fun _ => armed_blank _

/-- A response of `88` bytes. -/
def zeroResponse : OrderResponse := ⟨List.replicate 88 0, List.length_replicate⟩

/-- A client connects and sends its key; then a response arrives. -/
def responseRun : List Act :=
  acceptTurn 3 ++ (readTurn 0 ++ [.read (.data keyBytes 0), .frame .calm, .frame .calm] ++ endTurn)
    ++ [.turn true [zeroResponse]]

/-- **A response waits without a wake-up**: the thread waits, the response is in the send ring, and
`EPOLLOUT` is not registered. -/
theorem response_waits_without_wakeUp :
    (run step (btGatewayCreate 1) responseRun).map
        (fun s => (s.pc.waits, (s.conns 0).fd, (s.conns 0).sendHead, (s.conns 0).sendTail,
          (s.conns 0).sendPending)) = some (true, 3, 0, 93, false) := by
  decide

/-! ### Idle connections -/

/-- Whenever the thread waits, no open slot is marked as closing. -/
def NoneClosing (s : Sys) : Prop :=
  s.pc.waits = true → ∀ i < s.maxConns, 0 ≤ (s.conns i).fd → (s.conns i).state ≠ .closing

/-- The scan for idle connections finds none: every open connection has had traffic within the last
`GW_IDLE_TIMEOUT_NS`. -/
def NoneIdle (s : Sys) : Act → Prop
  | .idleScan now =>
      ∀ i < s.maxConns, 0 ≤ (s.conns i).fd → ¬ now - (s.conns i).lastActive > gwIdleTimeoutNs
  | _ => True

instance (s : Sys) : (a : Act) → Decidable (NoneIdle s a)
  | .idleScan now => inferInstanceAs (Decidable
      (∀ i < s.maxConns, 0 ≤ (s.conns i).fd → ¬ now - (s.conns i).lastActive > gwIdleTimeoutNs))
  | .turn .. | .poll .. | .dispatch | .accept .. | .read .. | .frame .. | .finish .. =>
      isTrue trivial

/-- The slot whose event the thread is handling. -/
def Pc.current : Pc → Option ℕ
  | .read i _ _ | .process i _ _ | .finish i _ _ => some i
  | _ => none

/-- Only the slot whose event is being handled may be open and marked as closing. -/
def Settled (s : Sys) : Prop :=
  ∀ i, 0 ≤ (s.conns i).fd → (s.conns i).state = .closing → s.pc.current = some i

theorem settled_btGatewayCreate (maxConns : ℕ) : Settled (btGatewayCreate maxConns) :=
  fun _ hopen _ => absurd hopen (show ¬ (0 : ℤ) ≤ -1 by decide)

/-- Handing out responses marks no connection. -/
theorem state_gwDrainResponses (maxConns : ℕ) (conns : ℕ → Conn) (resps : List OrderResponse)
    (j : ℕ) : (gwDrainResponses maxConns conns resps j).state = (conns j).state := by
  rw [gwDrainResponses_apply]
  split
  · exact (foldl_gwSendToConn_keeps _ _).1
  · rfl

section Settled

variable {s s' : Sys}

/-- A step that marks no connection and goes on with the event it was at. -/
theorem Settled.of_same (hs : Settled s)
    (hcur : ∀ i, s.pc.current = some i → s'.pc.current = some i)
    (hfd : ∀ j, (s'.conns j).fd = (s.conns j).fd)
    (hstate : ∀ j, (s'.conns j).state = (s.conns j).state) : Settled s' := by
  intro j hopen hclosing
  rw [hfd] at hopen
  rw [hstate] at hclosing
  exact hcur j (hs j hopen hclosing)

/-- A step that replaces the connection whose event is being handled. -/
theorem Settled.put (hs : Settled s) {i : ℕ} {c : Conn} {pc : Pc}
    (hcur : ∀ j, s.pc.current = some j → j = i)
    (hc : 0 ≤ c.fd → c.state = .closing → pc.current = some i) : Settled (s.put i c pc) := by
  intro j hopen hclosing
  by_cases hij : j = i
  · subst hij
    simp only [Sys.put, Function.update_self] at hopen hclosing
    exact hc hopen hclosing
  · simp only [Sys.put, Function.update_of_ne hij] at hopen hclosing
    exact absurd (hcur j (hs j hopen hclosing)) hij

/-- **Marked connections are closed before the next event**, as long as the scan for idle
connections finds none. -/
theorem step_settled {a : Act} (hs : Settled s) (hg : NoneIdle s a) (h : step s a = some s') :
    Settled s' := by
  have hnone : ∀ {pc : Pc} {p : ℕ → Prop}, s.pc = pc → pc.current = none →
      ∀ j, s.pc.current = some j → p j := fun hpc hcur j hj => by
    rw [hpc, hcur] at hj
    cases hj
  have hthis : ∀ {pc : Pc} {i : ℕ}, s.pc = pc → pc.current = some i →
      ∀ j, s.pc.current = some j → j = i := fun hpc hcur j hj => by
    rw [hpc, hcur] at hj
    exact (Option.some.inj hj).symm
  cases steps_of_step h with
  | turn hpc =>
      exact hs.of_same (hnone hpc rfl) (fun j => (sendOnly_gwDrainResponses _ _ _ j).fd)
        fun j => state_gwDrainResponses _ _ _ j
  | @dispatch ev rest hpc =>
      cases ev with
      | listen epollIn => exact hs.of_same (hnone hpc rfl) (fun _ => rfl) fun _ => rfl
      | conn i flags =>
          refine hs.put (hnone hpc rfl) fun _ _ => ?_
          split <;> rfl
  | accept hpc hfree => exact hs.put (hnone hpc rfl) fun _ hclosing => by cases hclosing
  | @readEnd i flags rest r hpc hend =>
      refine hs.of_same (fun j hj => ?_) (fun _ => rfl) fun _ => rfl
      rw [hthis hpc rfl j hj]
      rfl
  | data hpc hpos hroom => exact hs.put (hthis hpc rfl) fun _ _ => rfl
  | hangup hpc hr => exact hs.put (hthis hpc rfl) fun _ _ => rfl
  | frame hpc =>
      refine hs.put (hthis hpc rfl) fun _ _ => ?_
      split <;> rfl
  | keepOpen hpc hfinish hstate =>
      exact hs.put (hthis hpc rfl) fun _ hclosing => by cases hstate.symm.trans hclosing
  | close hpc hfinish hstate hflush =>
      exact hs.put (hthis hpc rfl) fun hopen _ => absurd hopen (show ¬ (0 : ℤ) ≤ -1 by decide)
  | @idleScan now hpc =>
      have hsame : idleScan s.maxConns s.conns now = s.conns := by
        funext j
        refine if_neg fun hidle => ?_
        exact hg j hidle.1 hidle.2.1 hidle.2.2
      exact hs.of_same (hnone hpc rfl) (fun j => by rw [hsame]) fun j => by rw [hsame]
  | stop hpc | interrupted hpc | pollError hpc | poll hpc _ | acceptEnd hpc =>
      exact hs.of_same (hnone hpc rfl) (fun _ => rfl) fun _ => rfl
  | refuse hpc _ => exact hs

theorem Settled.noneClosing (hs : Settled s) : NoneClosing s := by
  intro hwait i _ hopen hclosing
  have hcur := hs i hopen hclosing
  cases hpc : s.pc <;> simp [hpc, Pc.waits, Pc.current] at hwait hcur

end Settled

/-- At the head of the loop nothing is marked, if nothing is marked whenever the thread waits and it
will wait again. -/
theorem noneClosing_at_top {s t : Sys} {as : List Act} (hpc : s.pc = .top)
    (hr : run step s as = some t) (hwait : t.pc.waits = true)
    (h : Throughout step NoneClosing s as) :
    ∀ i < s.maxConns, 0 ≤ (s.conns i).fd → (s.conns i).state ≠ .closing := by
  cases as with
  | nil =>
      obtain rfl : s = t := by simpa using hr
      rw [hpc] at hwait
      cases hwait
  | cons a as =>
      obtain ⟨s', hstep, hr'⟩ := run_cons_iff.1 hr
      have hnext := throughout_head (h.2 s' hstep)
      cases a with
      | turn running resps =>
          cases running with
          | true =>
              simp only [step, hpc, if_true, Option.some.injEq] at hstep
              subst hstep
              intro i hi hopen
              rw [← state_gwDrainResponses s.maxConns s.conns resps i]
              refine hnext rfl i hi ?_
              rwa [(sendOnly_gwDrainResponses s.maxConns s.conns resps i).fd]
          | false =>
              -- a thread that has stopped does not wait again
              simp only [step, hpc, Bool.false_eq_true, if_false, Option.some.injEq] at hstep
              subst hstep
              cases as with
              | nil =>
                  cases hr'
                  cases hwait
              | cons b bs =>
                  obtain ⟨s'', hstep', -⟩ := run_cons_iff.1 hr'
                  simp [step] at hstep'
      | _ => simp [step, hpc] at hstep

/-- A scan that finds an idle connection leaves it marked and open at the next wait. -/
theorem noneIdle_of_noneClosing {s t : Sys} {as : List Act} (hs : Settled s)
    (hr : run step s as = some t) (hwait : t.pc.waits = true)
    (h : Throughout step NoneClosing s as) : Along step NoneIdle s as := by
  induction as generalizing s with
  | nil => exact along_nil s
  | cons a as ih =>
      obtain ⟨s', hstep, hr'⟩ := run_cons_iff.1 hr
      have hrest := h.2 s' hstep
      have hg : NoneIdle s a := by
        cases steps_of_step hstep with
        | @idleScan now hpc =>
            intro i hi hopen hidle
            have hmarked : idleScan s.maxConns s.conns now i =
                { s.conns i with state := .closing } := if_pos ⟨hi, hopen, hidle⟩
            have hnot := noneClosing_at_top rfl hr' hwait hrest i hi
            simp only [hmarked] at hnot
            exact hnot hopen rfl
        | _ => trivial
      refine ⟨hg, fun s'' hstep' => ?_⟩
      obtain rfl : s' = s'' := Option.some.inj (hstep.symm.trans hstep')
      exact ih (step_settled hs hg hstep) hr' hrest

/-- **No timed-out connection keeps its slot** exactly in the runs in which no connection times out:
in a run that leads to a call of `epoll_wait`, no open slot is marked as closing at any of these
calls exactly when every scan for idle connections has found none. -/
theorem noneClosing_iff {maxConns : ℕ} {as : List Act} {t : Sys}
    (hr : run step (btGatewayCreate maxConns) as = some t) (hwait : t.pc.waits = true) :
    Throughout step NoneClosing (btGatewayCreate maxConns) as ↔
      Along step NoneIdle (btGatewayCreate maxConns) as :=
  ⟨noneIdle_of_noneClosing (settled_btGatewayCreate maxConns) hr hwait,
    throughout_of_invariant (I := Settled) (fun _ _ _ hs hg h => step_settled hs hg h)
      (fun _ hs => hs.noneClosing) (settled_btGatewayCreate maxConns)⟩

/-- A client connects, and the thread waits again. -/
def connectRun : List Act := acceptTurn 3 ++ [.turn true []]

theorem noneClosing_after_connect :
    Throughout step NoneClosing (btGatewayCreate 1) connectRun :=
  (noneClosing_iff (t := (run step (btGatewayCreate 1) connectRun).get (by decide))
    (Option.some_get _).symm (by decide)).2 (by decide)

/-- A client connects and is silent for over a minute; then the thread waits again. -/
def silentRun : List Act :=
  acceptTurn 3 ++ [.turn true [], .poll (.events []), .idleScan 60000000001, .turn true []]

/-- **A timed-out connection keeps its slot**: the thread waits, and the slot is open and marked. -/
theorem timed_out_connection_kept :
    (run step (btGatewayCreate 1) silentRun).map
        (fun s => (s.pc.waits, (s.conns 0).fd, (s.conns 0).state)) = some (true, 3, .closing) := by
  decide

end Gateway
