/-
**Who may trade: authentication by API key.**

A connection becomes authenticated by an `A` frame whose payload is one of the whitelisted keys, and
only an authenticated connection can enqueue orders and cancels.  The key check, however, compares
`BT_API_KEY_LEN` bytes of the local buffer, of which a shorter payload has filled only the first
ones; the rest is whatever the buffer held before.  So a frame can be completed to a key by bytes
that its sender never sent, for instance by those of the last client that sent the key.

Main definitions:

* `Gateway.KeyFrame` — an `A` frame that carries a whitelisted key;
* `Gateway.Completes` — the old bytes of the buffer continue a payload to a whitelisted key;
* `Gateway.NotCompleted` — the steps at which that does not happen to a short `A` frame;
* `Gateway.KeyHolders` — the invariant.

Main results:

* `Gateway.keyFrame_or_completes` — a frame that passes the key check carries a key or was completed
  to one;
* `Gateway.step_keyHolders` — a step at which no short frame is completed keeps the invariant;
* `Gateway.enqueued_of_keyFrame` — **only key holders trade**, in every run in which no short frame
  is completed;
* `Gateway.stale_key_trades` — an empty `A` frame, sent after another client's key, is enough.
-/

import Mathlib.Data.List.GetD
import AspiraBroker.GatewayThread

set_option relaxedAutoImplicit false
set_option autoImplicit false

namespace Gateway

open Ring Transition

/-! ### Frames that pass the key check -/

/-- An `A` frame whose payload has at least `BT_API_KEY_LEN` bytes and starts with a whitelisted
key. -/
def KeyFrame (f : Frame) : Prop :=
  f.msgType = ascii 'A' ∧ btApiKeyLen ≤ f.payload.length ∧ f.payload.take btApiKeyLen ∈ gApiKeys

instance (f : Frame) : Decidable (KeyFrame f) :=
  inferInstanceAs (Decidable (_ ∧ _ ∧ _))

/-- The payload is the beginning of a whitelisted key, and behind it the buffer already holds the
rest of that key. -/
def Completes (stale : ℕ → UInt8) (payload : List UInt8) : Prop :=
  ∃ key ∈ gApiKeys, payload <+: key ∧
    ∀ j < btApiKeyLen, payload.length ≤ j → stale j = key.getD j 0

instance (stale : ℕ → UInt8) (payload : List UInt8) : Decidable (Completes stale payload) := by
  unfold Completes
  infer_instance

/-- A short payload that passes the key check was completed to a key. -/
theorem completes_of_short {stale : ℕ → UInt8} {payload : List UInt8}
    (hshort : payload.length < btApiKeyLen)
    (hkey : slice (fill stale 0 payload) 0 btApiKeyLen ∈ gApiKeys) : Completes stale payload := by
  refine ⟨_, hkey, ?_, fun j hj hle => ?_⟩
  · -- the buffer starts with the payload
    have htake : (slice (fill stale 0 payload) 0 btApiKeyLen).take payload.length = payload := by
      obtain ⟨d, hd⟩ := Nat.exists_eq_add_of_lt hshort
      rw [hd, Nat.add_assoc, slice_add, List.take_left' (length_slice _ _ _),
        slice_fill le_rfl, List.take_length]
    exact List.prefix_iff_eq_take.2 htake.symm
  · rw [List.getD_eq_getElem _ _ (by simpa using hj)]
    simp only [slice, List.getElem_map, List.getElem_range, Nat.zero_add]
    exact (fill_of_le (by omega)).symm

/-- **A frame that passes the key check carries a key or was completed to one.** -/
theorem keyFrame_or_completes {stale : ℕ → UInt8} {f : Frame} (hA : f.msgType = ascii 'A')
    (hkey : gwValidateApiKey (fill stale 0 f.payload) = true) :
    KeyFrame f ∨ f.payload.length < btApiKeyLen ∧ Completes stale f.payload := by
  rw [gwValidateApiKey_iff] at hkey
  rcases Nat.lt_or_ge f.payload.length btApiKeyLen with hshort | hlong
  · exact .inr ⟨hshort, completes_of_short hshort hkey⟩
  · rw [slice_fill hlong] at hkey
    exact .inl ⟨hA, hlong, hkey⟩

/-! ### The invariant -/

/-- The frame at the front of an unauthenticated connection, if it is an `A` frame shorter than a
key, is not completed to one by what the local buffer holds. -/
def Conn.NotCompleted (c : Conn) (stale : ℕ → UInt8) : Prop :=
  c.authenticated = false → c.Complete → c.front.msgType = ascii 'A' →
    c.front.payload.length < btApiKeyLen → ¬ Completes stale c.front.payload

/-- The steps of `gw_process_data` at which no short `A` frame of an unauthenticated connection is
completed to a key. -/
def NotCompleted (s : Sys) (a : Act) : Prop :=
  match s.pc, a with
  | .process i _ _, .frame env => (s.conns i).NotCompleted env.stale
  | _, _ => True

instance (c : Conn) (stale : ℕ → UInt8) : Decidable (c.NotCompleted stale) :=
  inferInstanceAs (Decidable (_ → _ → _ → _ → ¬ _))

instance (s : Sys) (a : Act) : Decidable (NotCompleted s a) := by
  cases a with
  | frame env =>
      unfold NotCompleted
      cases s.pc <;> infer_instance
  | _ =>
      unfold NotCompleted
      cases s.pc <;> exact isTrue trivial

/-- An authenticated connection has sent a key, and so had the sender of every message that was
enqueued, before it sent the message. -/
structure KeyHolders (s : Sys) : Prop where
  conns : ∀ i, (s.conns i).authenticated = true → ∃ f ∈ (s.conns i).handled, KeyFrame f
  enqueued : ∀ e ∈ s.ctx.enqueued, ∃ f ∈ e.before, KeyFrame f

theorem keyHolders_btGatewayCreate (maxConns : ℕ) : KeyHolders (btGatewayCreate maxConns) :=
  ⟨fun _ h => (Bool.false_ne_true h).elim, nofun⟩

/-- A round keeps the invariant of its connection and of the messages. -/
theorem round_keyHolders {env : FrameEnv} {g g' : Ctx} {c c' : Conn} {goesOn : Bool}
    (h : Round env g c g' c' goesOn) (hguard : c.NotCompleted env.stale)
    (hc : c.authenticated = true → ∃ f ∈ c.handled, KeyFrame f)
    (hg : ∀ e ∈ g.enqueued, ∃ f ∈ e.before, KeyFrame f) :
    (c'.authenticated = true → ∃ f ∈ c'.handled, KeyFrame f) ∧
      ∀ e ∈ g'.enqueued, ∃ f ∈ e.before, KeyFrame f := by
  cases h with
  | short | badLength | incomplete | noMemory => exact ⟨hc, hg⟩
  | frame hfront hhandled =>
      have hmore : (∃ f ∈ c.handled, KeyFrame f) → ∃ f ∈ c.handled ++ [c.front], KeyFrame f :=
        fun ⟨f, hf, hkey⟩ => ⟨f, List.mem_append_left _ hf, hkey⟩
      cases hhandled with
      | auth hA hkey =>
          refine ⟨fun _ => ?_, hg⟩
          cases hauth : c.authenticated with
          | true => exact hmore (hc hauth)
          | false =>
              rcases keyFrame_or_completes hA hkey with hframe | ⟨hshort, hcompletes⟩
              · exact ⟨c.front, List.mem_append_right _ (List.mem_singleton_self _), hframe⟩
              · exact absurd hcompletes (hguard hauth hfront hA hshort)
      | other hsame hout =>
          refine ⟨fun hauth => hmore (hc (hsame.authenticated ▸ hauth)), ?_⟩
          rcases hout with hnone | ⟨hauth, msg, hone⟩
          · exact hnone ▸ hg
          · -- the one new message comes from an authenticated connection
            intro e he
            rw [hone, List.mem_append, List.mem_singleton] at he
            rcases he with he | rfl
            · exact hg e he
            · exact hc hauth

/-- Replacing one connection keeps what the connections have earned if the new one has earned it. -/
theorem holdsKey_update {conns : ℕ → Conn} {i : ℕ} {c : Conn}
    (hconns : ∀ j, (conns j).authenticated = true → ∃ f ∈ (conns j).handled, KeyFrame f)
    (hc : c.authenticated = true → ∃ f ∈ c.handled, KeyFrame f) :
    ∀ j, (Function.update conns i c j).authenticated = true →
      ∃ f ∈ (Function.update conns i c j).handled, KeyFrame f :=
  all_update (p := fun c => c.authenticated = true → ∃ f ∈ c.handled, KeyFrame f) hconns hc

/-- **A step at which no short frame is completed keeps the invariant.** -/
theorem step_keyHolders {s s' : Sys} {a : Act} (hs : KeyHolders s) (hguard : NotCompleted s a)
    (h : step s a = some s') : KeyHolders s' := by
  cases stream_of_step h with
  | quiet hpc hpc' hctx hconns =>
      refine ⟨fun j hauth => ?_, hctx ▸ hs.enqueued⟩
      rw [(hconns j).handled]
      exact hs.conns j ((hconns j).authenticated ▸ hauth)
  | @opened _ _ i cfd now hpc hpc' hctx hconns =>
      -- a slot is cleared when it is reused
      refine ⟨?_, hctx ▸ hs.enqueued⟩
      rw [hconns]
      exact holdsKey_update hs.conns fun hauth => (Bool.false_ne_true hauth).elim
  | @stored i flags rest bytes now hpc hpos hroom =>
      exact ⟨holdsKey_update hs.conns (hs.conns i), hs.enqueued⟩
  | @round i flags rest env hpc =>
      simp only [NotCompleted, hpc] at hguard
      obtain ⟨hconn, henqueued⟩ :=
        round_keyHolders (round_of_gwProcessRound env s.ctx (s.conns i)) hguard (hs.conns i)
          hs.enqueued
      exact ⟨holdsKey_update hs.conns hconn, henqueued⟩

/-! ### Only key holders trade -/

/-- **Only key holders trade**, in every run in which the local buffer never completes a short `A`
frame to a key: whatever is enqueued, a frame with a whitelisted key was handled on the same
connection before. -/
theorem enqueued_of_keyFrame {maxConns : ℕ} {as : List Act}
    (hguard : Along step NotCompleted (btGatewayCreate maxConns) as) :
    Throughout step (fun s => ∀ e ∈ s.ctx.enqueued, ∃ f ∈ e.before, KeyFrame f)
      (btGatewayCreate maxConns) as :=
  throughout_of_invariant (fun _ _ _ => step_keyHolders) (fun _ => KeyHolders.enqueued)
    (keyHolders_btGatewayCreate maxConns) hguard

/-- The bytes of an `A` frame with the first key of the whitelist. -/
def keyBytes : List UInt8 := [0, 0, 0, 37, ascii 'A'] ++ gApiKeys.headD []

/-- The bytes of a cancel for order `7`. -/
def cancelBytes : List UInt8 := [0, 0, 0, 37, ascii 'C', 7] ++ List.replicate 31 0

/-- A client that sends a key and then a cancel. -/
def keyThenCancel : List Act :=
  acceptTurn 3 ++ readTurn 0 ++
    [.read (.data (keyBytes ++ cancelBytes) 0), .frame .calm, .frame .calm, .frame .calm] ++ endTurn

theorem enqueued_of_keyFrame_cancel :
    (run step (btGatewayCreate 1) keyThenCancel).map (fun s => s.ctx.enqueued.length) = some 1 ∧
      Along step NotCompleted (btGatewayCreate 1) keyThenCancel ∧
      Throughout step (fun s => ∀ e ∈ s.ctx.enqueued, ∃ f ∈ e.before, KeyFrame f)
        (btGatewayCreate 1) keyThenCancel :=
  ⟨by decide, by decide, enqueued_of_keyFrame (by decide)⟩

/-- The environment in which the local buffer still holds the key of the frame before. -/
def keyInBuffer : FrameEnv := { FrameEnv.calm with stale := fun i => (gApiKeys.headD []).getD i 0 }

/-- One client sends its key; then another one sends an empty `A` frame and a cancel. -/
def staleKeyRun : List Act :=
  acceptTurn 3 ++ acceptTurn 4 ++
    (readTurn 0 ++ [.read (.data keyBytes 0), .frame .calm, .frame .calm] ++ endTurn) ++
    (readTurn 1 ++
      [.read (.data ([0, 0, 0, 5, ascii 'A'] ++ cancelBytes) 0), .frame keyInBuffer, .frame .calm,
        .frame .calm] ++ endTurn)

/-- **An empty `A` frame, sent after another client's key, is enough**: the second client's cancel
is enqueued although the only frame before it carries no key. -/
theorem stale_key_trades :
    ∃ s e, run step (btGatewayCreate 2) staleKeyRun = some s ∧ e ∈ s.ctx.enqueued ∧
      e.before = [⟨ascii 'A', []⟩] ∧ ∀ f ∈ e.before, ¬ KeyFrame f := by
  have hend : (run step (btGatewayCreate 2) staleKeyRun).map
      (fun s => s.ctx.enqueued.map Enqueued.before) = some [[⟨ascii 'A', []⟩]] := by decide
  obtain ⟨s, hrun, hs⟩ := Option.map_eq_some_iff.1 hend
  have hmem : [⟨ascii 'A', []⟩] ∈ s.ctx.enqueued.map Enqueued.before := by simp [hs]
  obtain ⟨e, he, hbefore⟩ := List.mem_map.1 hmem
  exact ⟨s, e, hrun, he, hbefore, by rw [hbefore]; decide⟩

end Gateway
