/-
**The connection slots of the gateway.**

A connection lives in a slot, which is free when its file descriptor is `-1`.  `gw_accept` puts a
new socket into the first free slot and clears it, the end of an event closes a connection that was
marked, and both keep the count `active_conns`.  Accepts and closes alternate inside one batch of
events, so a slot may change its socket while events of the batch are still to come; since `epoll`
reports a connection at most once in a batch, the events to come belong to slots that are still
open.

Main definitions:

* `Gateway.SameSocket` — the socket of a connection and its send side are the same;
* `Gateway.openSlots` — the number of open slots;
* `Gateway.Pc.slots` — the slots whose events the thread has yet to finish;
* `Gateway.Sockets` — what a step does to the sockets in the slots;
* `Gateway.Accounted` — the invariant;
* `Gateway.OpensFreeSlots` — sockets change only by closing, and by accepting into a free slot.

Main results:

* `Gateway.sockets_of_step` — everything a step can do to the sockets;
* `Gateway.step_accounted` — the invariant is kept;
* `Gateway.slots_accounted` — **the slots are accounted for and clean** in every run.
-/

import AspiraBroker.GatewayOrders
import AspiraBroker.GatewayThread
import AspiraBroker.SlotCount

set_option relaxedAutoImplicit false
set_option autoImplicit false

namespace Gateway

open Transition

/-! ### What a frame leaves alone -/

/-- The socket of the connection and its send side are the same. -/
structure SameSocket (c c' : Conn) : Prop where
  fd : c'.fd = c.fd
  sendBuf : c'.sendBuf = c.sendBuf
  sendHead : c'.sendHead = c.sendHead
  sendTail : c'.sendTail = c.sendTail
  sendPending : c'.sendPending = c.sendPending
  sent : c'.sent = c.sent

theorem SameSocket.refl (c : Conn) : SameSocket c c := ⟨rfl, rfl, rfl, rfl, rfl, rfl⟩

theorem sameSocket_closing (c : Conn) : SameSocket c { c with state := .closing } :=
  ⟨rfl, rfl, rfl, rfl, rfl, rfl⟩

theorem sameSocket_store (c : Conn) (bytes : List UInt8) (now : UInt64) :
    SameSocket c (c.store bytes now) := ⟨rfl, rfl, rfl, rfl, rfl, rfl⟩

/-- An order changes nothing but the rate of the connection. -/
theorem sameSocket_gwPushOrder (env : FrameEnv) (g : Ctx) (c : Conn) (req : OrderRequest) :
    SameSocket c (gwPushOrder env g c req).2 ∧ (gwPushOrder env g c req).2.state = c.state := by
  have hrate : SameSocket c (c.rateWindow env.now) ∧ (c.rateWindow env.now).state = c.state := by
    unfold Conn.rateWindow
    split
    · exact ⟨⟨rfl, rfl, rfl, rfl, rfl, rfl⟩, rfl⟩
    · exact ⟨.refl c, rfl⟩
  rw [conn_gwPushOrder]
  split
  · obtain ⟨⟨h₁, h₂, h₃, h₄, h₅, h₆⟩, hstate⟩ := hrate
    exact ⟨⟨h₁, h₂, h₃, h₄, h₅, h₆⟩, hstate⟩
  · exact hrate

/-- A frame changes neither the socket nor the state of the connection. -/
theorem sameSocket_gwHandle {env : FrameEnv} {g g' : Ctx} {c c' : Conn} {f : Frame}
    (h : gwHandle env g c f = some (g', c')) : SameSocket c c' ∧ c'.state = c.state := by
  rw [gwHandle_eq] at h
  cases hreq : frameRequest env c.authenticated f with
  | noMemory => simp [hreq, gwServe] at h
  | skip =>
      rw [hreq] at h
      cases h
      exact ⟨.refl c, rfl⟩
  | auth =>
      rw [hreq] at h
      cases h
      exact ⟨⟨rfl, rfl, rfl, rfl, rfl, rfl⟩, rfl⟩
  | order req =>
      have hpush := sameSocket_gwPushOrder env g c req
      rw [hreq, gwServe] at h
      rwa [Option.some.inj h] at hpush
  | cancel req =>
      rw [hreq] at h
      cases h
      exact ⟨.refl c, rfl⟩

/-- A round of `gw_process_data` leaves the socket alone; at most it marks the connection. -/
theorem sameSocket_gwProcessRound (env : FrameEnv) (g : Ctx) (c : Conn) :
    SameSocket c (gwProcessRound env g c).2.1 ∧
      ((gwProcessRound env g c).2.1.state = c.state ∨
        (gwProcessRound env g c).2.1.state = .closing) := by
  unfold gwProcessRound
  split
  case isTrue => exact ⟨.refl c, .inl rfl⟩
  case isFalse =>
    split
    case isTrue => exact ⟨sameSocket_closing c, .inr rfl⟩
    case isFalse =>
      split
      case isTrue => exact ⟨.refl c, .inl rfl⟩
      case isFalse =>
        cases hframe : gwHandle env g c c.front with
        | none => exact ⟨sameSocket_closing c, .inr rfl⟩
        | some p =>
            obtain ⟨⟨h₁, h₂, h₃, h₄, h₅, h₆⟩, hstate⟩ := sameSocket_gwHandle hframe
            exact ⟨⟨h₁, h₂, h₃, h₄, h₅, h₆⟩, .inl hstate⟩

/-! ### What a step does to the sockets -/

/-- The slots whose events the thread has yet to finish. -/
def Pc.slots : Pc → List ℕ
  | .batch rest | .accept rest => reported rest
  | .read i _ rest | .process i _ rest | .finish i _ rest => i :: reported rest
  | .top | .wait | .stopped => []

/-- What a step does to the sockets: it takes a batch of events, or leaves every socket in its slot,
or accepts a socket into a free slot, or closes the one whose event it finishes. -/
inductive Sockets (s : Sys) : Act → Sys → Prop
  | polled {a : Act} {s' : Sys} {evs : List Event} (hmax : s'.maxConns = s.maxConns)
      (hactive : s'.activeConns = s.activeConns) (hconns : s'.conns = s.conns)
      (hslots : s'.pc.slots = reported evs) (hevs : Reportable s evs) : Sockets s a s'
  | kept {a : Act} {s' : Sys} (hmax : s'.maxConns = s.maxConns)
      (hactive : s'.activeConns = s.activeConns) (hslots : s'.pc.slots.Sublist s.pc.slots)
      (hfd : ∀ j, (s'.conns j).fd = (s.conns j).fd)
      (haccept : ∀ r, a = .accept r → s'.conns = s.conns) : Sockets s a s'
  | opened {s' : Sys} {i cfd : ℕ} {now : UInt64} (hmax : s'.maxConns = s.maxConns)
      (hactive : s'.activeConns = s.activeConns + 1) (hslots : s'.pc.slots = s.pc.slots)
      (hfree : gwFindFreeSlot s = some i)
      (hconns : s'.conns = Function.update s.conns i (.accepted cfd now)) :
      Sockets s (.accept (.conn cfd true now)) s'
  | closed {a : Act} {s' : Sys} {i : ℕ} {c : Conn} (hmax : s'.maxConns = s.maxConns)
      (hactive : s'.activeConns = s.activeConns - 1) (hslots : s.pc.slots = i :: s'.pc.slots)
      (hfd : c.fd = -1) (hconns : s'.conns = Function.update s.conns i c)
      (haccept : ∀ r, a ≠ .accept r) : Sockets s a s'

/-- Replacing one connection by one with the same socket leaves every socket in its slot. -/
theorem fd_update {conns : ℕ → Conn} {i : ℕ} {c : Conn} (h : c.fd = (conns i).fd) (j : ℕ) :
    (Function.update conns i c j).fd = (conns j).fd :=
  rel_update (r := fun c c' => c'.fd = c.fd) (fun _ => rfl) h j

theorem sockets_of_dispatchStep {s : Sys} {ev : Event} {rest : List Event}
    (hpc : s.pc = .batch (ev :: rest)) : Sockets s .dispatch (dispatchStep s rest ev) := by
  cases ev with
  | listen epollIn =>
      refine .kept rfl rfl ?_ (fun _ => rfl) nofun
      rw [hpc]
      cases epollIn <;> exact List.Sublist.refl _
  | conn i flags =>
      refine .kept rfl rfl ?_ (fd_update ?_) nofun
      · rw [hpc]
        simp only [dispatchStep, Sys.put]
        split <;> exact List.Sublist.refl _
      · split <;> rfl

/-- **Everything a step can do to the sockets.** -/
theorem sockets_of_step {s s' : Sys} {a : Act} (h : step s a = some s') : Sockets s a s' := by
  have hsame : ∀ {pc pc' : Pc}, s.pc = pc → pc'.slots = pc.slots →
      pc'.slots.Sublist s.pc.slots := by
    intro pc pc' hpc hslots
    rw [hpc, hslots]
  cases steps_of_step h with
  | turn hpc =>
      exact .kept rfl rfl (hsame hpc rfl) (fun j => (sendOnly_gwDrainResponses _ _ _ j).fd)
        (by simp)
  | stop hpc => exact .kept rfl rfl (hsame hpc rfl) (fun _ => rfl) (by simp)
  | interrupted hpc => exact .kept rfl rfl (hsame hpc rfl) (fun _ => rfl) (by simp)
  | pollError hpc => exact .kept rfl rfl (hsame hpc rfl) (fun _ => rfl) (by simp)
  | poll hpc hevs => exact .polled rfl rfl rfl rfl hevs
  | dispatch hpc => exact sockets_of_dispatchStep hpc
  | acceptEnd hpc => exact .kept rfl rfl (hsame hpc rfl) (fun _ => rfl) fun _ _ => rfl
  | refuse hpc hno => exact .kept rfl rfl (.refl _) (fun _ => rfl) fun _ _ => rfl
  | accept hpc hfree => exact .opened rfl rfl (by rw [hpc]; rfl) hfree rfl
  | readEnd hpc hno => exact .kept rfl rfl (hsame hpc rfl) (fun _ => rfl) (by simp)
  | data hpc hpos hroom => exact .kept rfl rfl (hsame hpc rfl) (fd_update rfl) (by simp)
  | hangup hpc hr => exact .kept rfl rfl (hsame hpc rfl) (fd_update rfl) (by simp)
  | @frame i flags rest env hpc =>
      refine .kept rfl rfl ?_ (fd_update (sameSocket_gwProcessRound env s.ctx (s.conns i)).1.fd)
        (by simp)
      rw [hpc]
      simp only [frameStep, Sys.put]
      split <;> exact List.Sublist.refl _
  | keepOpen hpc hfinish hstate =>
      refine .kept rfl rfl ?_ (fd_update (sendOnly_gwFinish hfinish).fd) (by simp)
      rw [hpc]
      exact List.sublist_cons_self _ _
  | close hpc hfinish hstate hflush => exact .closed rfl rfl (by rw [hpc]; rfl) rfl rfl (by simp)
  | idleScan hpc =>
      exact .kept rfl rfl (hsame hpc rfl) (fun j => (sendOnly_idleScan _ _ _ j).fd) (by simp)

/-! ### The invariant -/

/-- The slot holds a socket. -/
def Conn.isOpen (c : Conn) : Bool := decide (c.fd ≠ -1)

/-- The number of slots that hold a socket. -/
def openSlots (s : Sys) : ℕ := Counting.count Conn.isOpen s.maxConns s.conns

/-- **The invariant**: the count is right, and the slots whose events are to come are open and
different from each other. -/
structure Accounted (s : Sys) : Prop where
  count : s.activeConns = openSlots s
  nodup : s.pc.slots.Nodup
  isOpen : ∀ i ∈ s.pc.slots, i < s.maxConns ∧ 0 ≤ (s.conns i).fd

theorem accounted_btGatewayCreate (maxConns : ℕ) : Accounted (btGatewayCreate maxConns) where
  count := by simp [btGatewayCreate, openSlots, Counting.count, Conn.isOpen, Conn.blank]
  nodup := List.nodup_nil
  isOpen := nofun

theorem gwFindFreeSlot_eq_some {s : Sys} {i : ℕ} (h : gwFindFreeSlot s = some i) :
    i < s.maxConns ∧ (s.conns i).fd = -1 := by
  obtain ⟨j, hj, hsome, -⟩ := Search.firstSome_eq_some_iff.1 h
  simp only [Option.ite_none_right_eq_some, Option.some.injEq] at hsome
  obtain ⟨hfd, rfl⟩ := hsome
  exact ⟨hj, hfd⟩

/-- A socket is put into a slot without one. -/
theorem openSlots_opened {s s' : Sys} {i : ℕ} {c : Conn} (hmax : s'.maxConns = s.maxConns)
    (hconns : s'.conns = Function.update s.conns i c) (hi : i < s.maxConns)
    (hold : (s.conns i).fd = -1) (hnew : c.fd ≠ -1) : openSlots s' = openSlots s + 1 := by
  rw [openSlots, hmax, hconns]
  exact Counting.count_update_gain hi (by simp [Conn.isOpen, hold]) (decide_eq_true hnew)

/-- The socket of a slot is taken out. -/
theorem openSlots_closed {s s' : Sys} {i : ℕ} {c : Conn} (hmax : s'.maxConns = s.maxConns)
    (hconns : s'.conns = Function.update s.conns i c) (hi : i < s.maxConns)
    (hold : (s.conns i).fd ≠ -1) (hnew : c.fd = -1) : openSlots s' + 1 = openSlots s := by
  rw [openSlots, hmax, hconns]
  exact Counting.count_update_loss hi (decide_eq_true hold) (by simp [Conn.isOpen, hnew])

/-- **The invariant is kept.** -/
theorem step_accounted {s s' : Sys} {a : Act} (hs : Accounted s) (h : step s a = some s') :
    Accounted s' := by
  have hcount := hs.count
  cases sockets_of_step h with
  | polled hmax hactive hconns hslots hevs =>
      refine ⟨?_, hslots ▸ hevs.2.1, fun i hi => ?_⟩
      · rw [hactive, openSlots, hmax, hconns]
        exact hcount
      · rw [hmax, hconns]
        exact hevs.2.2 i (hslots ▸ hi)
  | kept hmax hactive hslots hfd haccept =>
      refine ⟨?_, hs.nodup.sublist hslots, fun i hi => ?_⟩
      · have hkinds : ∀ i, (s'.conns i).isOpen = (s.conns i).isOpen := fun i => by
          rw [Conn.isOpen, Conn.isOpen, hfd i]
        rw [hactive, openSlots, hmax, Counting.count_congr hkinds]
        exact hcount
      · rw [hmax, hfd]
        exact hs.isOpen i (hslots.subset hi)
  | @opened _ i cfd now hmax hactive hslots hfree hconns =>
      obtain ⟨hi, hfd⟩ := gwFindFreeSlot_eq_some hfree
      have hnew : (Conn.accepted cfd now).fd ≠ -1 := show (cfd : ℤ) ≠ -1 by omega
      have hopened := openSlots_opened hmax hconns hi hfd hnew
      refine ⟨by omega, hslots ▸ hs.nodup, fun j hj => ?_⟩
      rw [hslots] at hj
      have hopen := hs.isOpen j hj
      -- the free slot is none of those whose events are to come
      have hne : j ≠ i := by
        rintro rfl
        omega
      rw [hmax, hconns, Function.update_of_ne hne]
      exact hopen
  | @closed _ _ i c hmax hactive hslots hfd hconns haccept =>
      have hnodup := hs.nodup
      rw [hslots, List.nodup_cons] at hnodup
      have hi := hs.isOpen i (by simp [hslots])
      have hclosed := openSlots_closed hmax hconns hi.1 (by omega) hfd
      refine ⟨by omega, hnodup.2, fun j hj => ?_⟩
      have hne : j ≠ i := by
        rintro rfl
        exact hnodup.1 hj
      rw [hmax, hconns, Function.update_of_ne hne]
      exact hs.isOpen j (by rw [hslots]; exact List.mem_cons_of_mem i hj)

/-! ### The slots are accounted for and clean -/

/-- The count of connections is the number of open slots, which is within its bounds. -/
def CountsOpenSlots (s : Sys) : Prop :=
  s.activeConns = openSlots s ∧ 0 ≤ s.activeConns ∧ s.activeConns ≤ s.maxConns

/-- A connection that has done nothing yet: not authenticated, with empty rings. -/
structure Clean (c : Conn) : Prop where
  authenticated : c.authenticated = false
  recv : c.recvHead = c.recvTail
  send : c.sendHead = c.sendTail

/-- What a step may do to a slot.  An accept leaves it as it is, or puts the new socket into it if
it was free, and leaves it clean; any other step leaves the socket in the slot or closes it. -/
def SlotStep : Act → Conn → Conn → Prop
  | .accept (.conn cfd _ _), c, c' => c' = c ∨ c.fd = -1 ∧ c'.fd = cfd ∧ Clean c'
  | _, c, c' => c'.fd = c.fd ∨ c'.fd = -1

/-- The step hands out no slot that is open, and only clean ones. -/
def OpensFreeSlots (s : Sys) (a : Act) : Prop :=
  ∀ s', step s a = some s' → ∀ i, SlotStep a (s.conns i) (s'.conns i)

/-- A slot that is left as it is. -/
theorem slotStep_refl (a : Act) (c : Conn) : SlotStep a c c := by
  unfold SlotStep
  split
  · exact .inl rfl
  · exact .inl rfl

theorem Accounted.countsOpenSlots {s : Sys} (hs : Accounted s) : CountsOpenSlots s := by
  have hle : openSlots s ≤ s.maxConns := Counting.count_le _
  refine ⟨hs.count, ?_, ?_⟩ <;> rw [hs.count] <;> omega

/-- **A step hands out only free slots.** -/
theorem opensFreeSlots_of_step (s : Sys) (a : Act) : OpensFreeSlots s a := by
  intro s' h i
  cases sockets_of_step h with
  | polled hmax hactive hconns hslots hevs => exact hconns ▸ slotStep_refl a _
  | kept hmax hactive hslots hfd haccept =>
      unfold SlotStep
      split
      · exact .inl (congrFun (haccept _ rfl) i)
      · exact .inl (hfd i)
  | @opened _ j cfd now hmax hactive hslots hfree hconns =>
      rw [hconns]
      by_cases hij : i = j
      · subst hij
        rw [Function.update_self]
        exact .inr ⟨(gwFindFreeSlot_eq_some hfree).2, rfl, rfl, rfl, rfl⟩
      · rw [Function.update_of_ne hij]
        exact .inl rfl
  | @closed _ _ j c hmax hactive hslots hfd hconns haccept =>
      rw [hconns]
      by_cases hij : i = j
      · subst hij
        rw [Function.update_self]
        unfold SlotStep
        split
        · exact absurd rfl (haccept _)
        · exact .inr hfd
      · rw [Function.update_of_ne hij]
        exact slotStep_refl a _

/-- **The slots are accounted for and clean.**  In every state of every run `active_conns` is the
number of slots with a socket and between zero and `max_conns`; and every step hands out only free
slots, to connections that start clean. -/
theorem slots_accounted (maxConns : ℕ) (as : List Act) :
    Throughout step CountsOpenSlots (btGatewayCreate maxConns) as ∧
      Along step OpensFreeSlots (btGatewayCreate maxConns) as :=
  ⟨throughout_of_invariant (G := fun _ _ => True) (fun _ _ _ hs _ h => step_accounted hs h)
      (fun _ hs => hs.countsOpenSlots) (accounted_btGatewayCreate maxConns)
      (along_of_forall (fun _ _ => trivial) _ as),
    along_of_forall opensFreeSlots_of_step _ as⟩

end Gateway
