/-
**The descriptors of the gateway, from `bt_gateway_create` to `bt_gateway_destroy`.**

The gateway opens a listening socket and an epoll instance when it is created and a socket for each
connection it accepts.  It closes a socket at once when no slot is free or `epoll_ctl` fails, closes
the sockets of connections that end while the thread runs, and closes the rest when it is stopped;
a creation that fails half-way closes what it has opened.  The rest of the process opens and closes
files at the same time, so that a number the gateway gives back may be in use again at once.

This module follows the descriptors through whole lives of gateways, one after the other: `main`
creates the gateway, starts its thread, stops it and destroys it, each of them once.  At every
moment the gateway holds its listening socket, its epoll instance and the sockets in its slots, each
descriptor in one place; it never closes one that is not its own; and when it is stopped it holds
none.

Main definitions:

* `Gateway.gwCreateListen`, `Gateway.create` — the creation with its failures;
* `Gateway.stopCloses`, `Gateway.tableStep` — what `bt_gateway_stop` closes, and what a step of the
  thread does to the descriptors;
* `Gateway.Process`, `Gateway.procStep` — the gateway among the rest of the process;
* `Gateway.openFds`, `Gateway.Instance.descriptors` — what the fields of the gateway name.

Main results:

* `Gateway.holds_tableStep` — a step of the thread;
* `Gateway.custody_procStep` — a step of the process;
* `Gateway.descriptors_in_custody` — **no descriptor leaks, none is closed twice**.
-/

import AspiraBroker.DescriptorTable
import AspiraBroker.GatewaySlots
import Mathlib.Tactic.Abel

set_option relaxedAutoImplicit false
set_option autoImplicit false

namespace Gateway

open Descriptors Transition

/-! ### Creation -/

/-- What the calls of `gw_create_listen` return: no socket, a socket that cannot be bound or does
not listen, or a listening socket. -/
inductive ListenResult
  | noSocket
  | refused (fd : ℤ)
  | listening (fd : ℤ)

/-- `gw_create_listen`. -/
def gwCreateListen (t : Table) : ListenResult → Option (Table × ℤ)
  | .noSocket => some (t, -1)
  | .refused fd => (t.opened fd).map fun t => (t.close fd, -1)
  | .listening fd => (t.opened fd).map fun t => (t, fd)

/-- `epoll_create1`. -/
def epollCreate (t : Table) : Option ℤ → Option (Table × ℤ)
  | none => some (t, -1)
  | some fd => (t.opened fd).map fun t => (t, fd)

/-- How far the life of a gateway is: `bt_gateway_destroy` stops a gateway that was not stopped, and
then frees it. -/
inductive Phase
  | created
  | started
  | stopping (thenFree : Bool)
  | stopped
deriving DecidableEq

/-- A gateway: its thread, the two descriptors of the context, and `running`. -/
structure Instance where
  sys : Sys
  listenFd : ℤ
  epollFd : ℤ
  running : Bool
  phase : Phase

/-- `bt_gateway_create`, with what the allocations and the calls return. -/
def create (t : Table) (maxConns : ℕ) (memory : Bool) (listen : ListenResult) (epoll : Option ℤ) :
    Option (Table × Option Instance) :=
  if memory then do
    let (t, listenFd) ← gwCreateListen t listen
    let (t, epollFd) ← epollCreate t epoll
    if listenFd < 0 ∨ epollFd < 0 then
      some ((t.closeOpen listenFd).closeOpen epollFd, none)
    else some (t, some ⟨btGatewayCreate maxConns, listenFd, epollFd, true, .created⟩)
  else some (t, none)

/-! ### The thread and the end -/

/-- What a step of the thread does to the descriptors: `gw_accept` gets a socket, and closes it if
it cannot serve it; a connection that is marked is closed. -/
def tableStep (t : Table) (s : Sys) (a : Act) : Option Table :=
  match s.pc, a with
  | .accept _, .accept (.conn cfd epollOk _) =>
      (t.opened cfd).map fun t =>
        if (gwFindFreeSlot s).isSome ∧ epollOk = true then t else t.close cfd
  | .finish i flags _, .finish outs _ =>
      (gwFinish flags outs (s.conns i)).map fun c =>
        match c.state with
        | .reading => t
        | .closing => t.close c.fd
  | _, _ => some t

/-- The fields that `bt_gateway_stop` goes through. -/
def stopCloses (g : Instance) : List ℤ :=
  (List.range g.sys.maxConns).map (fun i => (g.sys.conns i).fd) ++ [g.listenFd, g.epollFd]

/-- `bt_gateway_stop`, after the thread was joined. -/
def btGatewayStop (t : Table) (g : Instance) : Table := (stopCloses g).foldl Table.closeOpen t

/-- The process: its descriptors, and the gateway if there is one. -/
structure Process where
  table : Table
  gateway : Option Instance

/-- A process without a gateway. -/
def Process.initial (others : Finset ℤ) : Process := ⟨⟨∅, others, 0⟩, none⟩

/-- The labels: the calls of `main`, the end of `pthread_join`, the steps of the thread, and what
the rest of the process opens and closes. -/
inductive ProcAct
  | create (maxConns : ℕ) (memory : Bool) (listen : ListenResult) (epoll : Option ℤ)
  | start
  | thread (a : Act)
  | stop
  | joined
  | destroy
  | openOther (fd : ℤ)
  | closeOther (fd : ℤ)

/-- The thread is there. -/
def Phase.runs : Phase → Bool
  | .started | .stopping _ => true
  | .created | .stopped => false

/-- The load of `running` returns what is stored there. -/
def Act.sees (running : Bool) : Act → Bool
  | .turn r _ => r == running
  | _ => true

/-- A step of the thread in the process. -/
def threadStep (t : Table) (g : Instance) (a : Act) : Option Process :=
  if g.phase.runs = true ∧ a.sees g.running = true then do
    let s ← step g.sys a
    let t ← tableStep t g.sys a
    some ⟨t, some { g with sys := s }⟩
  else none

/-- `bt_gateway_stop` stores `running` and waits for the thread. -/
def Instance.stop (g : Instance) (thenFree : Bool) : Instance :=
  { g with running := false, phase := .stopping thenFree }

/-- One step of the process. -/
def procStep (p : Process) (a : ProcAct) : Option Process :=
  match a, p.gateway with
  | .create maxConns memory listen epoll, none =>
      (create p.table maxConns memory listen epoll).map fun r => ⟨r.1, r.2⟩
  | .start, some g =>
      if g.phase = .created then some { p with gateway := some { g with phase := .started } }
      else none
  | .thread a, some g => threadStep p.table g a
  | .stop, some g =>
      if g.phase = .started then some { p with gateway := some (g.stop false) } else none
  | .joined, some g =>
      match g.phase, g.sys.pc with
      | .stopping thenFree, .stopped =>
          some ⟨btGatewayStop p.table g,
            if thenFree then none else some { g with phase := .stopped }⟩
      | _, _ => none
  | .destroy, some g =>
      if g.running then
        if g.phase = .started then some { p with gateway := some (g.stop true) } else none
      else if g.phase = .stopped then some { p with gateway := none } else none
  | .openOther fd, _ => (p.table.openedByOthers fd).map fun t => { p with table := t }
  | .closeOther fd, _ => (p.table.closedByOthers fd).map fun t => { p with table := t }
  | _, _ => none

/-! ### The descriptors of the slots -/

/-- The descriptor of a slot that is open. -/
def Conn.descriptor (c : Conn) : Multiset ℤ := if 0 ≤ c.fd then {c.fd} else 0

/-- The descriptors in the slots. -/
def openFds (maxConns : ℕ) (conns : ℕ → Conn) : Multiset ℤ :=
  ∑ i ∈ Finset.range maxConns, (conns i).descriptor

/-- What the fields of a gateway name. -/
def Instance.descriptors (g : Instance) : Multiset ℤ :=
  {g.listenFd, g.epollFd} + openFds g.sys.maxConns g.sys.conns

section Slots

variable {s s' : Sys} {maxConns i : ℕ} {conns conns' : ℕ → Conn} {c : Conn}

theorem openFds_congr (hfd : ∀ j, (conns' j).fd = (conns j).fd) :
    openFds maxConns conns' = openFds maxConns conns := by
  simp only [openFds, Conn.descriptor, hfd]

/-- One slot changes. -/
theorem openFds_update (conns : ℕ → Conn) (c : Conn) (hi : i < maxConns) :
    openFds maxConns (Function.update conns i c) + (conns i).descriptor =
      openFds maxConns conns + c.descriptor := by
  have hmem : i ∈ Finset.range maxConns := Finset.mem_range.2 hi
  have hrest : ∑ j ∈ (Finset.range maxConns).erase i, (Function.update conns i c j).descriptor =
      ∑ j ∈ (Finset.range maxConns).erase i, (conns j).descriptor :=
    Finset.sum_congr rfl fun j hj => by rw [Function.update_of_ne (Finset.ne_of_mem_erase hj)]
  rw [openFds, openFds, ← Finset.add_sum_erase _ _ hmem, ← Finset.add_sum_erase _ _ hmem, hrest,
    Function.update_self]
  abel

theorem openFds_opened (hfree : gwFindFreeSlot s = some i) (cfd : ℕ) (now : UInt64) :
    openFds s.maxConns (Function.update s.conns i (.accepted cfd now)) =
      (cfd : ℤ) ::ₘ openFds s.maxConns s.conns := by
  obtain ⟨hi, hfd⟩ := gwFindFreeSlot_eq_some hfree
  have hsum := openFds_update s.conns (.accepted cfd now) hi
  have hold : (s.conns i).descriptor = 0 := by simp [Conn.descriptor, hfd]
  have hnew : (Conn.accepted cfd now).descriptor = {(cfd : ℤ)} :=
    if_pos (show (0 : ℤ) ≤ cfd by omega)
  rw [hold, hnew, add_zero] at hsum
  rw [hsum, add_comm, Multiset.singleton_add]

theorem openFds_closed (hi : i < maxConns) (hold : 0 ≤ (conns i).fd) (hnew : c.fd = -1) :
    openFds maxConns conns = (conns i).fd ::ₘ openFds maxConns (Function.update conns i c) := by
  have hsum := openFds_update conns c hi
  have hone : (conns i).descriptor = {(conns i).fd} := if_pos hold
  have hnone : c.descriptor = 0 := by simp [Conn.descriptor, hnew]
  rw [hone, hnone, add_zero] at hsum
  rw [← hsum, add_comm, Multiset.singleton_add]

/-- Only `accept4` and the end of an event change the descriptors. -/
theorem fd_of_step {a : Act} (h : step s a = some s') (haccept : ∀ r, a ≠ .accept r)
    (hfinish : ∀ outs closeOuts, a ≠ .finish outs closeOuts) :
    s'.maxConns = s.maxConns ∧ ∀ j, (s'.conns j).fd = (s.conns j).fd := by
  cases steps_of_step h with
  | turn hpc => exact ⟨rfl, fun j => (sendOnly_gwDrainResponses _ _ _ j).fd⟩
  | stop | interrupted | pollError | poll | readEnd => exact ⟨rfl, fun _ => rfl⟩
  | @dispatch ev rest hpc =>
      cases ev with
      | listen epollIn => exact ⟨rfl, fun _ => rfl⟩
      | conn i flags =>
          refine ⟨rfl, fd_update ?_⟩
          split <;> rfl
  | acceptEnd | refuse | accept => exact absurd rfl (haccept _)
  | data | hangup => exact ⟨rfl, fd_update rfl⟩
  | frame hpc => exact ⟨rfl, fd_update (sameSocket_gwProcessRound _ _ _).1.fd⟩
  | keepOpen | close => exact absurd rfl (hfinish _ _)
  | idleScan hpc => exact ⟨rfl, fun j => (sendOnly_idleScan _ _ _ j).fd⟩

end Slots

/-! ### A step of the thread -/

section Thread

variable {t t' : Table} {s s' : Sys} {m : Multiset ℤ}

theorem holds_accept {cfd : ℕ} {epollOk : Bool} {now : UInt64}
    (ht : Holds t (m + openFds s.maxConns s.conns))
    (h : step s (.accept (.conn cfd epollOk now)) = some s')
    (htable : tableStep t s (.accept (.conn cfd epollOk now)) = some t') :
    Holds t' (m + openFds s'.maxConns s'.conns) := by
  cases steps_of_step h with
  | refuse hpc hno =>
      simp only [tableStep, hpc] at htable
      obtain ⟨t₁, hopen, rfl⟩ := Option.map_eq_some_iff.1 htable
      have hcond : ¬((gwFindFreeSlot s).isSome ∧ epollOk = true) := by
        rcases hno with hno | hno <;> simp [hno]
      rw [if_neg hcond]
      exact ht.opened_close hopen
  | @accept i cfd now rest hpc hfree =>
      simp only [tableStep, hpc] at htable
      obtain ⟨t₁, hopen, rfl⟩ := Option.map_eq_some_iff.1 htable
      rw [if_pos ⟨by simp [hfree], trivial⟩]
      change Holds t₁ (m + openFds s.maxConns (Function.update s.conns i (.accepted cfd now)))
      rw [openFds_opened hfree, Multiset.add_cons]
      exact ht.opened hopen

theorem holds_finish {outs closeOuts : List SendResult} (hs : Accounted s)
    (ht : Holds t (m + openFds s.maxConns s.conns))
    (h : step s (.finish outs closeOuts) = some s')
    (htable : tableStep t s (.finish outs closeOuts) = some t') :
    Holds t' (m + openFds s'.maxConns s'.conns) := by
  cases steps_of_step h with
  | keepOpen hpc hfinish hstate =>
      simp only [tableStep, hpc, hfinish, hstate, Option.map_some, Option.some.injEq] at htable
      subst htable
      rw [← openFds_congr (fd_update (sendOnly_gwFinish hfinish).fd)] at ht
      exact ht
  | @close i flags rest outs closeOuts c c' hpc hfinish hstate hflush =>
      simp only [tableStep, hpc, hfinish, hstate, Option.map_some, Option.some.injEq] at htable
      subst htable
      have hopen := hs.isOpen i (by simp [hpc, Pc.slots])
      rw [openFds_closed hopen.1 hopen.2 (c := { c' with fd := -1 }) rfl, Multiset.add_cons,
        ← (sendOnly_gwFinish hfinish).fd] at ht
      exact ht.close

/-- **A step of the thread**: what is held follows the slots. -/
theorem holds_tableStep {a : Act} (hs : Accounted s) (ht : Holds t (m + openFds s.maxConns s.conns))
    (h : step s a = some s') (htable : tableStep t s a = some t') :
    Holds t' (m + openFds s'.maxConns s'.conns) := by
  have quiet : tableStep t s a = some t → (∀ r, a ≠ .accept r) →
      (∀ outs closeOuts, a ≠ .finish outs closeOuts) →
      Holds t' (m + openFds s'.maxConns s'.conns) := by
    intro hsame haccept hfinish
    obtain ⟨hmax, hfd⟩ := fd_of_step h haccept hfinish
    obtain rfl := Option.some.inj (hsame.symm.trans htable)
    rwa [hmax, openFds_congr hfd]
  cases a with
  | accept r =>
      cases r with
      | none =>
          cases steps_of_step h with
          | acceptEnd hpc =>
              simp only [tableStep, hpc, Option.some.injEq] at htable
              subst htable
              exact ht
      | conn cfd epollOk now => exact holds_accept ht h htable
  | finish outs closeOuts => exact holds_finish hs ht h htable
  | turn | poll | dispatch | read | frame | idleScan =>
      refine quiet ?_ (by simp) (by simp)
      unfold tableStep
      split <;> first | rfl | contradiction

end Thread

/-! ### Creation and end -/

section Ends

variable {t t' : Table} {m : Multiset ℤ}

/-- A call that may fail returns `-1`, or a descriptor that is held from then on. -/
theorem holds_gwCreateListen {r : ListenResult} {fd : ℤ} (h : Holds t m)
    (hcreate : gwCreateListen t r = some (t', fd)) :
    fd < 0 ∧ Holds t' m ∨ 0 ≤ fd ∧ Holds t' (fd ::ₘ m) := by
  cases r with
  | noSocket =>
      cases hcreate
      exact .inl ⟨by decide, h⟩
  | refused fd =>
      obtain ⟨t₁, hopen, heq⟩ := Option.map_eq_some_iff.1 hcreate
      cases heq
      exact .inl ⟨by decide, h.opened_close hopen⟩
  | listening fd =>
      obtain ⟨t₁, hopen, heq⟩ := Option.map_eq_some_iff.1 hcreate
      cases heq
      exact .inr ⟨(Option.ite_none_right_eq_some.1 hopen).1.1, h.opened hopen⟩

theorem holds_epollCreate {r : Option ℤ} {fd : ℤ} (h : Holds t m)
    (hcreate : epollCreate t r = some (t', fd)) :
    fd < 0 ∧ Holds t' m ∨ 0 ≤ fd ∧ Holds t' (fd ::ₘ m) := by
  cases r with
  | none =>
      cases hcreate
      exact .inl ⟨by decide, h⟩
  | some fd =>
      obtain ⟨t₁, hopen, heq⟩ := Option.map_eq_some_iff.1 hcreate
      cases heq
      exact .inr ⟨(Option.ite_none_right_eq_some.1 hopen).1.1, h.opened hopen⟩

/-- What `bt_gateway_stop` goes through are the descriptors in the slots. -/
theorem openFds_eq_filter (maxConns : ℕ) (conns : ℕ → Conn) :
    openFds maxConns conns =
      ↑(((List.range maxConns).map fun i => (conns i).fd).filter (0 ≤ ·)) := by
  induction maxConns with
  | zero => rfl
  | succ n ih =>
      rw [openFds, Finset.sum_range_succ, ← openFds, ih, List.range_succ, List.map_append,
        List.filter_append, ← Multiset.coe_add, Conn.descriptor]
      split
      case isTrue hfd => simp [hfd]
      case isFalse hfd => simp [hfd]

/-- **`bt_gateway_stop` gives back everything.** -/
theorem holds_btGatewayStop {g : Instance} (hlisten : 0 ≤ g.listenFd) (hepoll : 0 ≤ g.epollFd)
    (h : Holds t g.descriptors) : Holds (btGatewayStop t g) 0 := by
  refine Holds.closeOpen ?_
  have hall : (↑((stopCloses g).filter (0 ≤ ·)) : Multiset ℤ) = g.descriptors := by
    have hctx : [g.listenFd, g.epollFd].filter (0 ≤ ·) = [g.listenFd, g.epollFd] := by
      simp [hlisten, hepoll]
    rw [stopCloses, List.filter_append, hctx, ← Multiset.coe_add, ← openFds_eq_filter, add_comm]
    rfl
  rwa [hall, add_zero]

end Ends

/-! ### A step of the process -/

/-- What the process holds for the gateway: nothing once the gateway is stopped. -/
def Process.held (p : Process) : Multiset ℤ :=
  match p.gateway with
  | none => 0
  | some g => if g.phase = .stopped then 0 else g.descriptors

/-- **The invariant**: the gateway holds what its fields name. -/
structure Custody (p : Process) : Prop where
  holds : Holds p.table p.held
  accounted : ∀ g, p.gateway = some g → Accounted g.sys
  context : ∀ g, p.gateway = some g → 0 ≤ g.listenFd ∧ 0 ≤ g.epollFd

section Process

variable {p p' : Process} {t : Table} {g : Instance}

theorem held_of_gateway (hg : p.gateway = some g) (hphase : g.phase ≠ .stopped) :
    p.held = g.descriptors := by
  simp only [Process.held, hg, if_neg hphase]

theorem custody_none (h : Holds t 0) : Custody ⟨t, none⟩ := ⟨h, by simp, by simp⟩

theorem custody_some (hphase : g.phase ≠ .stopped) (h : Holds t g.descriptors)
    (hsys : Accounted g.sys) (hctx : 0 ≤ g.listenFd ∧ 0 ≤ g.epollFd) : Custody ⟨t, some g⟩ where
  holds := by rwa [held_of_gateway rfl hphase]
  accounted := by
    rintro _ ⟨⟩
    exact hsys
  context := by
    rintro _ ⟨⟩
    exact hctx

theorem Custody.descriptors (h : Custody p) (hg : p.gateway = some g)
    (hphase : g.phase ≠ .stopped) : Holds p.table g.descriptors :=
  held_of_gateway hg hphase ▸ h.holds

/-- `bt_gateway_create` closes what it has opened when it fails. -/
theorem custody_create {maxConns : ℕ} {memory : Bool} {listen : ListenResult} {epoll : Option ℤ}
    {r : Table × Option Instance} (h : Holds t 0)
    (hcreate : create t maxConns memory listen epoll = some r) : Custody ⟨r.1, r.2⟩ := by
  unfold create at hcreate
  split at hcreate
  case isFalse =>
    cases hcreate
    exact custody_none h
  case isTrue =>
    obtain ⟨⟨t₁, listenFd⟩, hlisten, hcreate⟩ := Option.bind_eq_some_iff.1 hcreate
    obtain ⟨⟨t₂, epollFd⟩, hepoll, hcreate⟩ := Option.bind_eq_some_iff.1 hcreate
    simp only at hcreate
    -- the two calls fail or not; what they have opened is closed unless both succeed
    rcases holds_gwCreateListen h hlisten with ⟨hl, h₁⟩ | ⟨hl, h₁⟩ <;>
      rcases holds_epollCreate h₁ hepoll with ⟨he, h₂⟩ | ⟨he, h₂⟩
    · rw [if_pos (.inl hl)] at hcreate
      cases hcreate
      rw [Table.closeOpen, if_neg (by omega), Table.closeOpen, if_neg (by omega)]
      exact custody_none h₂
    · rw [if_pos (.inl hl)] at hcreate
      cases hcreate
      rw [Table.closeOpen, if_pos he, Table.closeOpen, if_neg (by omega)]
      exact custody_none h₂.close
    · rw [if_pos (.inr he)] at hcreate
      cases hcreate
      rw [Table.closeOpen, if_neg (by omega), Table.closeOpen, if_pos hl]
      exact custody_none h₂.close
    · rw [if_neg (by omega)] at hcreate
      cases hcreate
      refine custody_some (by simp) ?_ (accounted_btGatewayCreate maxConns) ⟨hl, he⟩
      have hnone : openFds maxConns (fun _ => Conn.blank (-1)) = 0 := by
        simp [openFds, Conn.descriptor, Conn.blank]
      rw [Instance.descriptors, btGatewayCreate, hnone, add_zero, Multiset.pair_comm]
      exact h₂

/-- A step of the thread. -/
theorem custody_threadStep {a : Act} (h : Custody p) (hg : p.gateway = some g)
    (hstep : threadStep p.table g a = some p') : Custody p' := by
  obtain ⟨⟨hruns, -⟩, hstep⟩ := Option.ite_none_right_eq_some.1 hstep
  obtain ⟨s, hs, hstep⟩ := Option.bind_eq_some_iff.1 hstep
  obtain ⟨t, ht, hstep⟩ := Option.bind_eq_some_iff.1 hstep
  cases hstep
  have hphase : g.phase ≠ .stopped := by
    intro hstopped
    simp [hstopped, Phase.runs] at hruns
  exact custody_some hphase (holds_tableStep (h.accounted g hg) (h.descriptors hg hphase) hs ht)
    (step_accounted (h.accounted g hg) hs) (h.context g hg)

/-- The gateway gets into another phase of its life. -/
theorem Custody.moveOn {running : Bool} {phase : Phase} (h : Custody p) (hg : p.gateway = some g)
    (hold : g.phase ≠ .stopped) (hnew : phase ≠ .stopped) :
    Custody { p with gateway := some { g with running, phase } } := by
  have hholds := h.descriptors hg hold
  exact custody_some hnew hholds (h.accounted g hg) (h.context g hg)

/-- The table changes at the hands of others. -/
theorem Custody.table (h : Custody p) (ht : Holds t p.held) : Custody { p with table := t } :=
  ⟨ht, h.accounted, h.context⟩

/-- **A step of the process keeps the invariant.** -/
theorem custody_procStep {a : ProcAct} (h : Custody p) (hstep : procStep p a = some p') :
    Custody p' := by
  unfold procStep at hstep
  split at hstep
  next maxConns memory listen epoll hg =>
    obtain ⟨r, hcreate, rfl⟩ := Option.map_eq_some_iff.1 hstep
    have hnone : p.held = 0 := by simp only [Process.held, hg]
    exact custody_create (hnone ▸ h.holds) hcreate
  next g hg =>
    obtain ⟨hphase, hsome⟩ := Option.ite_none_right_eq_some.1 hstep
    cases hsome
    exact h.moveOn hg (by simp [hphase]) (by simp)
  next a g hg => exact custody_threadStep h hg hstep
  next g hg =>
    obtain ⟨hphase, hsome⟩ := Option.ite_none_right_eq_some.1 hstep
    cases hsome
    exact h.moveOn hg (by simp [hphase]) (by simp)
  next g hg =>
    split at hstep
    next thenFree hphase hpc =>
      cases hstep
      have hctx := h.context g hg
      have hholds := holds_btGatewayStop hctx.1 hctx.2 (h.descriptors hg (by simp [hphase]))
      cases thenFree with
      | true => exact custody_none hholds
      | false =>
          refine ⟨hholds, ?_, ?_⟩
          · rintro _ ⟨⟩
            exact h.accounted g hg
          · rintro _ ⟨⟩
            exact hctx
    next => cases hstep
  next g hg =>
    split at hstep
    case isTrue =>
      obtain ⟨hphase, hsome⟩ := Option.ite_none_right_eq_some.1 hstep
      cases hsome
      exact h.moveOn hg (by simp [hphase]) (by simp)
    case isFalse =>
      obtain ⟨hphase, hsome⟩ := Option.ite_none_right_eq_some.1 hstep
      cases hsome
      have hnone : p.held = 0 := by simp only [Process.held, hg, if_pos hphase]
      exact custody_none (hnone ▸ h.holds)
  next fd =>
    obtain ⟨t, hopen, rfl⟩ := Option.map_eq_some_iff.1 hstep
    exact h.table (h.holds.openedByOthers hopen)
  next fd =>
    obtain ⟨t, hclose, rfl⟩ := Option.map_eq_some_iff.1 hstep
    exact h.table (h.holds.closedByOthers hclose)
  next => cases hstep

end Process

/-- **No descriptor leaks, none is closed twice.**  Throughout every life of gateways in a process
whose other threads open and close files at any time: the gateway has closed only descriptors that
it held; what it holds are its listening socket, its epoll instance and the sockets in its slots,
each descriptor once; and it holds none before it is created, after a creation that failed and after
it was stopped. -/
theorem descriptors_in_custody (others : Finset ℤ) (acts : List ProcAct) :
    Throughout procStep (fun p => Holds p.table p.held ∧ p.held.Nodup) (.initial others) acts :=
  throughout_of_invariant (G := fun _ _ => True) (fun _ _ _ h _ => custody_procStep h)
    (fun _ h => ⟨h.holds, h.holds.nodup⟩) (custody_none ⟨rfl, rfl⟩)
    (along_of_forall (fun _ _ => trivial) _ acts)

/-- A gateway with one slot, which accepts a connection and refuses another one before it is
stopped; a file of another thread gets the number of the refused one. -/
example :
    (run procStep (.initial {0, 1, 2})
      ([.create 1 true (.listening 3) (some 4), .start] ++
        [.turn true [], .poll (.events [.listen true]), .dispatch, .accept (.conn 5 true 0),
          .accept (.conn 6 true 0), .accept .none, .idleScan 0].map .thread ++
        [.openOther 6, .stop, .thread (.turn false []), .joined, .destroy])).map
      (fun p => (p.table.ours, p.table.others, p.table.stray, p.gateway.isSome)) =
        some (∅, {0, 1, 2, 6}, 0, false) := by
  decide +kernel

end Gateway
