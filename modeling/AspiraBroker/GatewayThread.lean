/-
**The gateway thread, one step at a time.**

`gw_thread_core` is a loop around `epoll_wait`.  A turn hands the waiting responses to the
connections, takes a batch of events, works through them one by one, and ends with a scan for idle
connections.  An event of the listening socket accepts connections until there is none left; an
event of a connection reads until the socket is drained, with a call of `gw_process_data` after
every successful `read`, and then sends, and closes a connection that was marked for it.

A step of the machine is one system call or one round of the loop of `gw_process_data`, and its
label says what the system call returned.  Of `epoll` it is assumed that a batch reports each
connection at most once and only connections that are registered.

Main definitions:

* `Gateway.Event`, `Gateway.Pc` — events, and where the thread stands;
* `Gateway.Sys`, `Gateway.Act`, `Gateway.step` — the machine;
* `Gateway.btGatewayCreate` — the state after `bt_gateway_create`;
* `Gateway.Touches` — what a step does to the connections;
* `Gateway.Stream` — the same for their byte streams.

Main results:

* `Gateway.steps_of_step` — everything a step can do;
* `Gateway.touches_of_step` — the same for the connections alone;
* `Gateway.stream_of_step` — the same for the byte streams alone: **a step opens a slot, stores
  what `read` returned, handles a frame, or leaves every stream as it is**.
-/

import AspiraBroker.BoundedSearch
import AspiraBroker.Gateway
import AspiraBroker.TransitionRuns

set_option relaxedAutoImplicit false
set_option autoImplicit false

namespace Gateway

open Ring

/-! ### The machine -/

/-- The flags of an event of a connection. -/
structure Flags where
  /-- `EPOLLERR` or `EPOLLHUP`. -/
  errHup : Bool
  epollIn : Bool
  epollOut : Bool

/-- An `epoll_event`: of the listening socket, whose `data.ptr` is null, or of a connection. -/
inductive Event
  | listen (epollIn : Bool)
  | conn (slot : ℕ) (flags : Flags)

/-- Where the thread stands: at the head of its loop, at `epoll_wait`, before the next event of a
batch, in `gw_accept`, in the read loop of a slot, in `gw_process_data` for it, behind the read
loop, or out of the loop. -/
inductive Pc
  | top
  | wait
  | batch (rest : List Event)
  | accept (rest : List Event)
  | read (slot : ℕ) (flags : Flags) (rest : List Event)
  | process (slot : ℕ) (flags : Flags) (rest : List Event)
  | finish (slot : ℕ) (flags : Flags) (rest : List Event)
  | stopped

/-- What `epoll_wait` returns. -/
inductive PollResult
  | events (evs : List Event)
  | eintr
  | error

/-- What `accept4` returns, and for a new connection whether `epoll_ctl` then registers it and what
the clock shows. -/
inductive AcceptResult
  | none
  | conn (cfd : ℕ) (epollOk : Bool) (now : UInt64)

/-- What `read` returns. -/
inductive ReadResult
  | data (bytes : List UInt8) (now : UInt64)
  | eof
  | again
  | error

/-- The labels: the load of `running` with the responses that were popped, and the system calls. -/
inductive Act
  | turn (running : Bool) (resps : List OrderResponse)
  | poll (r : PollResult)
  | dispatch
  | accept (r : AcceptResult)
  | read (r : ReadResult)
  | frame (env : FrameEnv)
  | finish (outs closeOuts : List SendResult)
  | idleScan (now : UInt64)

/-- The state of the gateway. -/
structure Sys where
  ctx : Ctx
  maxConns : ℕ
  conns : ℕ → Conn
  activeConns : ℤ
  pc : Pc

/-- `bt_gateway_create`: every slot is free. -/
def btGatewayCreate (maxConns : ℕ) : Sys := ⟨.blank, maxConns, fun _ => .blank (-1), 0, .top⟩

/-- `gw_drain_responses`, one response: it goes to every open authenticated connection. -/
def gwBroadcast (maxConns : ℕ) (conns : ℕ → Conn) (resp : OrderResponse) : ℕ → Conn := fun i =>
  if i < maxConns ∧ 0 ≤ (conns i).fd ∧ (conns i).authenticated = true then
    gwSendToConn (conns i) resp
  else conns i

/-- `gw_drain_responses`. -/
def gwDrainResponses (maxConns : ℕ) (conns : ℕ → Conn) (resps : List OrderResponse) : ℕ → Conn :=
  resps.foldl (gwBroadcast maxConns) conns

/-- `GW_IDLE_TIMEOUT_NS`. -/
def gwIdleTimeoutNs : UInt64 := 60000000000

/-- The idle timeout scan: open connections without traffic for a minute are marked. -/
def idleScan (maxConns : ℕ) (conns : ℕ → Conn) (now : UInt64) : ℕ → Conn := fun i =>
  if i < maxConns ∧ 0 ≤ (conns i).fd ∧ now - (conns i).lastActive > gwIdleTimeoutNs then
    { conns i with state := .closing }
  else conns i

/-- `gw_find_free_slot`. -/
def gwFindFreeSlot (s : Sys) : Option ℕ :=
  Search.firstSome s.maxConns fun i => if (s.conns i).fd = -1 then some i else none

/-- The slot of a new connection: `memset`, then the fields that are not zero. -/
def Conn.accepted (cfd : ℕ) (now : UInt64) : Conn :=
  { Conn.blank cfd with lastActive := now, rateWindowStart := now }

/-- `tr`: the most that a `read` may deliver, up to the end of the array and of the free space. -/
def Conn.readRoom (c : Conn) : ℕ :=
  min (btCfgRecvBufSize - c.recvTail) (gwRingWritable c.recvHead c.recvTail bufCapacity.mask)

/-- The connection after a `read` into `recv_buf + tail`. -/
def Conn.store (c : Conn) (bytes : List UInt8) (now : UInt64) : Conn :=
  { c with
    recvBuf := fill c.recvBuf c.recvTail bytes
    recvTail := gwRingAdvance c.recvTail bytes.length bufCapacity.mask
    lastActive := now
    received := c.received ++ bytes }

/-- `EPOLLOUT` is registered when there is something to send, and taken back when there is not. -/
def Conn.register (c : Conn) : Conn :=
  if c.sendHead ≠ c.sendTail ∧ c.sendPending = false then { c with sendPending := true }
  else if c.sendHead = c.sendTail ∧ c.sendPending = true then { c with sendPending := false }
  else c

/-- What follows the read loop, before the test for `GW_CONN_CLOSING`. -/
def gwFinish (flags : Flags) (outs : List SendResult) (c : Conn) : Option Conn :=
  (if flags.epollOut then gwFlushSend outs c else some c).map Conn.register

/-- The slots that a batch reports. -/
def reported (evs : List Event) : List ℕ :=
  evs.filterMap fun
    | .listen _ => none
    | .conn i _ => some i

/-- What `epoll_wait` may report: at most `256` events, each connection once, and only connections
that are open. -/
def Reportable (s : Sys) (evs : List Event) : Prop :=
  evs.length ≤ 256 ∧ (reported evs).Nodup ∧
    ∀ i ∈ reported evs, i < s.maxConns ∧ 0 ≤ (s.conns i).fd

instance (s : Sys) (evs : List Event) : Decidable (Reportable s evs) := by
  unfold Reportable
  infer_instance

/-- The state after slot `i` was replaced and the thread moved on to `pc`. -/
def Sys.put (s : Sys) (i : ℕ) (c : Conn) (pc : Pc) : Sys :=
  { s with conns := Function.update s.conns i c, pc }

/-- One pass of the loop of `gw_accept`. -/
def acceptStep (s : Sys) (rest : List Event) : AcceptResult → Sys
  | .none => { s with pc := .batch rest }
  | .conn cfd epollOk now =>
      match gwFindFreeSlot s with
      | none => s
      | some i =>
          if epollOk then
            { s.put i (.accepted cfd now) (.accept rest) with activeConns := s.activeConns + 1 }
          else s

/-- One pass of the read loop; with no room left `read` is not called. -/
def readStep (s : Sys) (i : ℕ) (flags : Flags) (rest : List Event) (r : ReadResult) : Option Sys :=
  let c := s.conns i
  if c.readRoom = 0 then some { s with pc := .finish i flags rest }
  else
    match r with
    | .data bytes now =>
        if 1 ≤ bytes.length ∧ bytes.length ≤ c.readRoom then
          some (s.put i (c.store bytes now) (.process i flags rest))
        else none
    | .eof => some (s.put i { c with state := .closing } (.finish i flags rest))
    | .again => some { s with pc := .finish i flags rest }
    | .error => some (s.put i { c with state := .closing } (.finish i flags rest))

/-- One round of the loop of `gw_process_data`; when the loop ends the next `read` follows. -/
def frameStep (s : Sys) (i : ℕ) (flags : Flags) (rest : List Event) (env : FrameEnv) : Sys :=
  let r := gwProcessRound env s.ctx (s.conns i)
  { s.put i r.2.1 (if r.2.2 then .process i flags rest else .read i flags rest) with ctx := r.1 }

/-- The end of an event: send, register, and close a connection that is marked. -/
def finishStep (s : Sys) (i : ℕ) (flags : Flags) (rest : List Event)
    (outs closeOuts : List SendResult) : Option Sys :=
  match gwFinish flags outs (s.conns i) with
  | none => none
  | some c =>
      match c.state with
      | .reading => some (s.put i c (.batch rest))
      | .closing =>
          match gwFlushSend closeOuts c with
          | none => none
          | some c =>
              some
                { s.put i { c with fd := -1 } (.batch rest) with activeConns := s.activeConns - 1 }

/-- The next event of a batch. -/
def dispatchStep (s : Sys) (rest : List Event) : Event → Sys
  | .listen epollIn => { s with pc := if epollIn then .accept rest else .batch rest }
  | .conn i flags =>
      let c := s.conns i
      s.put i (if flags.errHup then { c with state := .closing } else c)
        (if flags.epollIn then .read i flags rest else .finish i flags rest)

/-- `gw_thread_core`, one step. -/
def step (s : Sys) (a : Act) : Option Sys :=
  match s.pc, a with
  | .top, .turn running resps =>
      if running then
        some { s with conns := gwDrainResponses s.maxConns s.conns resps, pc := .wait }
      else some { s with pc := .stopped }
  | .wait, .poll .eintr => some { s with pc := .top }
  | .wait, .poll .error => some { s with pc := .stopped }
  | .wait, .poll (.events evs) =>
      if Reportable s evs then some { s with pc := .batch evs } else none
  | .batch (ev :: rest), .dispatch => some (dispatchStep s rest ev)
  | .accept rest, .accept r => some (acceptStep s rest r)
  | .read i flags rest, .read r => readStep s i flags rest r
  | .process i flags rest, .frame env => some (frameStep s i flags rest env)
  | .finish i flags rest, .finish outs closeOuts => finishStep s i flags rest outs closeOuts
  | .batch [], .idleScan now =>
      some { s with conns := idleScan s.maxConns s.conns now, pc := .top }
  | _, _ => none

/-- A turn in which one connection is accepted, with the file descriptor `cfd`. -/
def acceptTurn (cfd : ℕ) : List Act :=
  [.turn true [], .poll (.events [.listen true]), .dispatch, .accept (.conn cfd true 0),
    .accept .none, .idleScan 0]

/-- The start of a turn in which the connection in slot `i` has something to read. -/
def readTurn (i : ℕ) : List Act :=
  [.turn true [], .poll (.events [.conn i ⟨false, true, false⟩]), .dispatch]

/-- The end of such a turn, when everything was read. -/
def endTurn : List Act := [.read .again, .finish [] [], .idleScan 0]

/-! ### Everything a step can do -/

/-- Everything a step can do, with the conditions under which it does. -/
inductive Steps (s : Sys) : Act → Sys → Prop
  | turn {resps : List OrderResponse} : s.pc = .top →
      Steps s (.turn true resps)
        { s with conns := gwDrainResponses s.maxConns s.conns resps, pc := .wait }
  | stop {resps : List OrderResponse} : s.pc = .top →
      Steps s (.turn false resps) { s with pc := .stopped }
  | interrupted : s.pc = .wait → Steps s (.poll .eintr) { s with pc := .top }
  | pollError : s.pc = .wait → Steps s (.poll .error) { s with pc := .stopped }
  | poll {evs : List Event} : s.pc = .wait → Reportable s evs →
      Steps s (.poll (.events evs)) { s with pc := .batch evs }
  | dispatch {ev : Event} {rest : List Event} : s.pc = .batch (ev :: rest) →
      Steps s .dispatch (dispatchStep s rest ev)
  | acceptEnd {rest : List Event} : s.pc = .accept rest →
      Steps s (.accept .none) { s with pc := .batch rest }
  | refuse {cfd : ℕ} {epollOk : Bool} {now : UInt64} {rest : List Event} : s.pc = .accept rest →
      (gwFindFreeSlot s = none ∨ epollOk = false) → Steps s (.accept (.conn cfd epollOk now)) s
  | accept {i cfd : ℕ} {now : UInt64} {rest : List Event} : s.pc = .accept rest →
      gwFindFreeSlot s = some i →
      Steps s (.accept (.conn cfd true now))
        { s.put i (.accepted cfd now) (.accept rest) with activeConns := s.activeConns + 1 }
  | readEnd {i : ℕ} {flags : Flags} {rest : List Event} {r : ReadResult} :
      s.pc = .read i flags rest → (s.conns i).readRoom = 0 ∨ r = .again →
      Steps s (.read r) { s with pc := .finish i flags rest }
  | data {i : ℕ} {flags : Flags} {rest : List Event} {bytes : List UInt8} {now : UInt64} :
      s.pc = .read i flags rest → 1 ≤ bytes.length → bytes.length ≤ (s.conns i).readRoom →
      Steps s (.read (.data bytes now))
        (s.put i ((s.conns i).store bytes now) (.process i flags rest))
  | hangup {i : ℕ} {flags : Flags} {rest : List Event} {r : ReadResult} :
      s.pc = .read i flags rest → r = .eof ∨ r = .error →
      Steps s (.read r) (s.put i { s.conns i with state := .closing } (.finish i flags rest))
  | frame {i : ℕ} {flags : Flags} {rest : List Event} {env : FrameEnv} :
      s.pc = .process i flags rest → Steps s (.frame env) (frameStep s i flags rest env)
  | keepOpen {i : ℕ} {flags : Flags} {rest : List Event} {outs closeOuts : List SendResult}
      {c : Conn} : s.pc = .finish i flags rest → gwFinish flags outs (s.conns i) = some c →
      c.state = .reading → Steps s (.finish outs closeOuts) (s.put i c (.batch rest))
  | close {i : ℕ} {flags : Flags} {rest : List Event} {outs closeOuts : List SendResult}
      {c c' : Conn} : s.pc = .finish i flags rest → gwFinish flags outs (s.conns i) = some c →
      c.state = .closing → gwFlushSend closeOuts c = some c' →
      Steps s (.finish outs closeOuts)
        { s.put i { c' with fd := -1 } (.batch rest) with activeConns := s.activeConns - 1 }
  | idleScan {now : UInt64} : s.pc = .batch [] →
      Steps s (.idleScan now) { s with conns := idleScan s.maxConns s.conns now, pc := .top }

section Inversion

variable {s s' : Sys}

theorem steps_of_acceptStep {rest : List Event} {r : AcceptResult} (hpc : s.pc = .accept rest) :
    Steps s (.accept r) (acceptStep s rest r) := by
  cases r with
  | none => exact .acceptEnd hpc
  | conn cfd epollOk now =>
      simp only [acceptStep]
      cases hfree : gwFindFreeSlot s with
      | none => exact .refuse hpc (.inl hfree)
      | some i =>
          cases epollOk with
          | false => exact .refuse hpc (.inr rfl)
          | true => exact .accept hpc hfree

theorem steps_of_readStep {i : ℕ} {flags : Flags} {rest : List Event} {r : ReadResult}
    (hpc : s.pc = .read i flags rest) (h : readStep s i flags rest r = some s') :
    Steps s (.read r) s' := by
  simp only [readStep] at h
  split at h
  case isTrue hroom =>
    cases h
    exact .readEnd hpc (.inl hroom)
  case isFalse =>
    cases r with
    | data bytes now =>
        simp only [Option.ite_none_right_eq_some, Option.some.injEq] at h
        obtain ⟨⟨hpos, hroom⟩, rfl⟩ := h
        exact .data hpc hpos hroom
    | eof =>
        cases h
        exact .hangup hpc (.inl rfl)
    | again =>
        cases h
        exact .readEnd hpc (.inr rfl)
    | error =>
        cases h
        exact .hangup hpc (.inr rfl)

theorem steps_of_finishStep {i : ℕ} {flags : Flags} {rest : List Event}
    {outs closeOuts : List SendResult} (hpc : s.pc = .finish i flags rest)
    (h : finishStep s i flags rest outs closeOuts = some s') :
    Steps s (.finish outs closeOuts) s' := by
  unfold finishStep at h
  cases hfinish : gwFinish flags outs (s.conns i) with
  | none => simp [hfinish] at h
  | some c =>
      cases hstate : c.state with
      | reading =>
          simp only [hfinish, hstate, Option.some.injEq] at h
          subst h
          exact .keepOpen hpc hfinish hstate
      | closing =>
          cases hflush : gwFlushSend closeOuts c with
          | none => simp [hfinish, hstate, hflush] at h
          | some c' =>
              simp only [hfinish, hstate, hflush, Option.some.injEq] at h
              subst h
              exact .close hpc hfinish hstate hflush

/-- **Everything a step can do.** -/
theorem steps_of_step {a : Act} (h : step s a = some s') : Steps s a s' := by
  unfold step at h
  split at h
  next running resps hpc =>
    cases running with
    | true =>
        cases h
        exact .turn hpc
    | false =>
        cases h
        exact .stop hpc
  next hpc =>
    cases h
    exact .interrupted hpc
  next hpc =>
    cases h
    exact .pollError hpc
  next evs hpc =>
    simp only [Option.ite_none_right_eq_some, Option.some.injEq] at h
    obtain ⟨hevs, rfl⟩ := h
    exact .poll hpc hevs
  next ev rest hpc =>
    cases h
    exact .dispatch hpc
  next rest r hpc =>
    cases h
    exact steps_of_acceptStep hpc
  next i flags rest r hpc => exact steps_of_readStep hpc h
  next i flags rest env hpc =>
    cases h
    exact .frame hpc
  next i flags rest outs closeOuts hpc => exact steps_of_finishStep hpc h
  next now hpc =>
    cases h
    exact .idleScan hpc
  next => cases h

end Inversion

/-! ### What a step does to the connections -/

/-- The slot for which `gw_process_data` is under way. -/
def Pc.processing : Pc → Option ℕ
  | .process i _ _ => some i
  | _ => none

/-- What a step does to the connections: it touches only their send sides and marks, or opens a
slot, or closes one, or stores what `read` returned and calls `gw_process_data`, or that makes a
round. -/
inductive Touches (s : Sys) : Act → Sys → Prop
  | sends {a : Act} {s' : Sys} (hpc : s.pc.processing = none) (hpc' : s'.pc.processing = none)
      (hctx : s'.ctx = s.ctx) (hconns : ∀ j, SendOnly (s.conns j) (s'.conns j)) : Touches s a s'
  | opened {s' : Sys} {i cfd : ℕ} {now : UInt64} (hpc : s.pc.processing = none)
      (hpc' : s'.pc.processing = none) (hctx : s'.ctx = s.ctx) (hfree : gwFindFreeSlot s = some i)
      (hconns : s'.conns = Function.update s.conns i (.accepted cfd now)) :
      Touches s (.accept (.conn cfd true now)) s'
  | closed {a : Act} {s' : Sys} {i : ℕ} {c : Conn} (hpc : s.pc.processing = none)
      (hpc' : s'.pc.processing = none) (hctx : s'.ctx = s.ctx) (hsent : SendOnly (s.conns i) c)
      (hconns : s'.conns = Function.update s.conns i { c with fd := -1 }) : Touches s a s'
  | stored {i : ℕ} {flags : Flags} {rest : List Event} {bytes : List UInt8} {now : UInt64}
      (hpc : s.pc.processing = none) (hpos : 1 ≤ bytes.length)
      (hroom : bytes.length ≤ (s.conns i).readRoom) :
      Touches s (.read (.data bytes now))
        (s.put i ((s.conns i).store bytes now) (.process i flags rest))
  | round {i : ℕ} {flags : Flags} {rest : List Event} {env : FrameEnv}
      (hpc : s.pc = .process i flags rest) : Touches s (.frame env) (frameStep s i flags rest env)

/-- What holds of every connection still does when one was replaced by one of which it holds. -/
theorem all_update {p : Conn → Prop} {conns : ℕ → Conn} {i : ℕ} {c : Conn}
    (h : ∀ j, p (conns j)) (hc : p c) (j : ℕ) : p (Function.update conns i c j) :=
  (Function.forall_update_iff conns fun _ c' => p c').2 ⟨hc, fun j _ => h j⟩ j

/-- When one connection was replaced by a related one, every connection is related to what it
was. -/
theorem rel_update {r : Conn → Conn → Prop} (hrefl : ∀ c, r c c) {conns : ℕ → Conn} {i : ℕ}
    {c : Conn} (h : r (conns i) c) (j : ℕ) : r (conns j) (Function.update conns i c j) :=
  (Function.forall_update_iff conns fun j c' => r (conns j) c').2 ⟨h, fun _ _ => hrefl _⟩ j

theorem sendOnly_gwDrainResponses (maxConns : ℕ) (conns : ℕ → Conn) (resps : List OrderResponse)
    (j : ℕ) : SendOnly (conns j) (gwDrainResponses maxConns conns resps j) := by
  induction resps generalizing conns with
  | nil => exact .refl _
  | cons resp resps ih =>
      have hone : SendOnly (conns j) (gwBroadcast maxConns conns resp j) := by
        unfold gwBroadcast
        split
        · exact sendOnly_gwSendToConn _ _
        · exact .refl _
      exact hone.trans (ih (gwBroadcast maxConns conns resp))

theorem sendOnly_idleScan (maxConns : ℕ) (conns : ℕ → Conn) (now : UInt64) (j : ℕ) :
    SendOnly (conns j) (idleScan maxConns conns now j) := by
  unfold idleScan
  split
  · exact sendOnly_closing _
  · exact .refl _

theorem sendOnly_register (c : Conn) : SendOnly c c.register := by
  unfold Conn.register
  split
  · exact ⟨rfl, id, ⟨rfl, rfl, rfl, rfl, rfl, rfl⟩, rfl, rfl, rfl⟩
  · split
    · exact ⟨rfl, id, ⟨rfl, rfl, rfl, rfl, rfl, rfl⟩, rfl, rfl, rfl⟩
    · exact .refl c

theorem sendOnly_gwFinish {flags : Flags} {outs : List SendResult} {c c' : Conn}
    (h : gwFinish flags outs c = some c') : SendOnly c c' := by
  obtain ⟨c₁, hflush, rfl⟩ := Option.map_eq_some_iff.1 h
  have hflushed : SendOnly c c₁ := by
    split at hflush
    · exact sendOnly_gwFlushSend hflush
    · exact Option.some.inj hflush ▸ .refl c
  exact hflushed.trans (sendOnly_register c₁)

theorem touches_of_dispatchStep {s : Sys} {a : Act} (hpc : s.pc.processing = none)
    (rest : List Event) (ev : Event) : Touches s a (dispatchStep s rest ev) := by
  cases ev with
  | listen epollIn =>
      refine .sends hpc ?_ rfl fun j => .refl _
      cases epollIn <;> rfl
  | conn i flags =>
      refine .sends hpc ?_ rfl (rel_update .refl ?_)
      · simp only [dispatchStep, Sys.put]
        split <;> rfl
      · split
        · exact sendOnly_closing _
        · exact .refl _

/-- **What a step does to the connections.** -/
theorem touches_of_step {s s' : Sys} {a : Act} (h : step s a = some s') : Touches s a s' := by
  have hnot : ∀ {pc : Pc}, s.pc = pc → pc.processing = none → s.pc.processing = none :=
    fun hpc hnone => hpc ▸ hnone
  cases steps_of_step h with
  | turn hpc => exact .sends (hnot hpc rfl) rfl rfl fun j => sendOnly_gwDrainResponses _ _ _ j
  | dispatch hpc => exact touches_of_dispatchStep (hnot hpc rfl) _ _
  | refuse hpc _ => exact .sends (hnot hpc rfl) (hnot hpc rfl) rfl fun j => .refl _
  | accept hpc hfree => exact .opened (hnot hpc rfl) rfl rfl hfree rfl
  | data hpc hpos hroom => exact .stored (hnot hpc rfl) hpos hroom
  | hangup hpc _ => exact .sends (hnot hpc rfl) rfl rfl (rel_update .refl (sendOnly_closing _))
  | frame hpc => exact .round hpc
  | keepOpen hpc hfinish _ =>
      exact .sends (hnot hpc rfl) rfl rfl (rel_update .refl (sendOnly_gwFinish hfinish))
  | close hpc hfinish _ hflush =>
      exact .closed (hnot hpc rfl) rfl rfl
        ((sendOnly_gwFinish hfinish).trans (sendOnly_gwFlushSend hflush)) rfl
  | idleScan hpc => exact .sends (hnot hpc rfl) rfl rfl fun j => sendOnly_idleScan _ _ _ j
  | stop hpc | interrupted hpc | pollError hpc | poll hpc _ | acceptEnd hpc | readEnd hpc _ =>
      exact .sends (hnot hpc rfl) rfl rfl fun j => .refl _

/-! ### What a step does to the byte streams -/

/-- What a step does to the streams: nothing, or it opens a slot, or it stores what `read` returned
and calls `gw_process_data`, or that makes a round. -/
inductive Stream (s : Sys) : Act → Sys → Prop
  | quiet {a : Act} {s' : Sys} (hpc : s.pc.processing = none) (hpc' : s'.pc.processing = none)
      (hctx : s'.ctx = s.ctx) (hconns : ∀ j, SameStream (s.conns j) (s'.conns j)) : Stream s a s'
  | opened {a : Act} {s' : Sys} {i cfd : ℕ} {now : UInt64} (hpc : s.pc.processing = none)
      (hpc' : s'.pc.processing = none) (hctx : s'.ctx = s.ctx)
      (hconns : s'.conns = Function.update s.conns i (.accepted cfd now))
      (ha : a = .accept (.conn cfd true now)) (hfree : gwFindFreeSlot s = some i) : Stream s a s'
  | stored {i : ℕ} {flags : Flags} {rest : List Event} {bytes : List UInt8} {now : UInt64}
      (hpc : s.pc.processing = none) (hpos : 1 ≤ bytes.length)
      (hroom : bytes.length ≤ (s.conns i).readRoom) :
      Stream s (.read (.data bytes now))
        (s.put i ((s.conns i).store bytes now) (.process i flags rest))
  | round {i : ℕ} {flags : Flags} {rest : List Event} {env : FrameEnv}
      (hpc : s.pc = .process i flags rest) : Stream s (.frame env) (frameStep s i flags rest env)

/-- **What a step does to the byte streams.** -/
theorem stream_of_step {s s' : Sys} {a : Act} (h : step s a = some s') : Stream s a s' := by
  cases touches_of_step h with
  | sends hpc hpc' hctx hconns => exact .quiet hpc hpc' hctx fun j => (hconns j).stream
  | opened hpc hpc' hctx hfree hconns => exact .opened hpc hpc' hctx hconns rfl hfree
  | @closed _ _ i c hpc hpc' hctx hsent hconns =>
      have hstream : SameStream (s.conns i) { c with fd := -1 } :=
        hsent.stream.trans ⟨rfl, rfl, rfl, rfl, rfl, rfl⟩
      exact .quiet hpc hpc' hctx (hconns ▸ rel_update .refl hstream)
  | stored hpc hpos hroom => exact .stored hpc hpos hroom
  | round hpc => exact .round hpc

end Gateway
