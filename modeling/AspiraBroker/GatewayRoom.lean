/-
**The largest frame that the gateway accepts does not fit into its ring.**

`gw_process_data` accepts lengths from `5` to `BT_CFG_RECV_BUF_SIZE` and leaves a frame at the front
of the ring until all of it has come.  The receive ring has that many slots, but it is full when one
of them is still free.  So a shorter frame can always be completed and is then handled, while a
frame of exactly the largest length fills the ring with its last byte outstanding: the read loop has
no room to read into, and the frame stays incomplete.

Main definitions:

* `Gateway.AcceptedFrame` — the bytes of one frame of a length that passes the check;
* `Gateway.Unfinished` — bytes that the loop of `gw_process_data` leaves in the ring;
* `Gateway.Receiving` — the invariant;
* `Gateway.Completable` — a frame can be received to its end and is then handled;
* `Gateway.ReceivesFrames` — what is demanded of a connection.

Main results:

* `Gateway.step_receiving` — the invariant is kept;
* `Gateway.run_deliver` — the rest of a shorter frame can be delivered byte by byte;
* `Gateway.receives_frames` — **a frame of an accepted length can be completed exactly when it is
  shorter than the ring**.
-/

import AspiraBroker.GatewayFraming
import AspiraBroker.GatewaySlots

set_option relaxedAutoImplicit false
set_option autoImplicit false

namespace Gateway

open Ring Transition

/-! ### Frames and their beginnings -/

/-- The bytes of one frame whose length passes the check of `gw_process_data`. -/
structure AcceptedFrame (bs : List UInt8) : Prop where
  lengthField_eq : lengthField bs = bs.length
  five_le : 5 ≤ bs.length
  le_max : bs.length ≤ btCfgRecvBufSize

/-- The bytes are no whole frame yet, and as far as the length is known it passes the check. -/
def Unfinished (bs : List UInt8) : Prop :=
  bs.length < 5 ∨
    5 ≤ lengthField bs ∧ lengthField bs ≤ btCfgRecvBufSize ∧ bs.length < lengthField bs

theorem AcceptedFrame.whole {bs : List UInt8} (h : AcceptedFrame bs) : Whole bs := by
  rw [Whole, h.lengthField_eq]
  exact ⟨h.five_le, h.le_max, le_rfl⟩

theorem AcceptedFrame.size_firstFrame {bs : List UInt8} (h : AcceptedFrame bs) :
    (firstFrame bs).size = bs.length := by
  have := h.five_le
  rw [Frame.size, firstFrame, h.lengthField_eq, List.take_length, List.length_drop]
  omega

/-- The beginning of an accepted frame is unfinished. -/
theorem AcceptedFrame.unfinished {xs ys : List UInt8} (h : AcceptedFrame (xs ++ ys))
    (hne : ys ≠ []) : Unfinished xs := by
  rcases Nat.lt_or_ge xs.length 5 with hshort | hlong
  · exact .inl hshort
  · have hlen := lengthField_append (by omega : 4 ≤ xs.length) ys
    have hpos := List.length_pos_iff.2 hne
    obtain ⟨heq, hmin, hmax⟩ := h
    rw [hlen, List.length_append] at heq
    rw [List.length_append] at hmin hmax
    exact .inr ⟨by omega, by omega, by omega⟩

/-! ### Rounds -/

section Rounds

variable {c : Conn} (hc : Framed c)

include hc

/-- A round leaves an unfinished frame alone and ends the loop. -/
theorem gwProcessRound_of_unfinished (h : Unfinished c.pending) (env : FrameEnv) (g : Ctx) :
    gwProcessRound env g c = (g, c, false) := by
  have hlen := hc.readable_eq_length
  rw [gwProcessRound]
  rcases Nat.lt_or_ge c.readable 5 with hshort | hlong
  · rw [if_pos hshort]
  · obtain ⟨hmin, hmax, hless⟩ := h.resolve_left (by omega)
    rw [← hc.msgLen_eq hlong] at hmin hmax hless
    rw [if_neg (by omega), if_neg (by omega), if_pos (by omega)]

/-- A round handles a whole frame, given the memory for it. -/
theorem gwProcessRound_of_whole (h : Whole c.pending) {env : FrameEnv}
    (hmalloc : env.mallocOk = true) (g : Ctx) :
    (gwProcessRound env g c).2.1.received = c.received ∧
      (gwProcessRound env g c).2.1.handled = c.handled ++ [firstFrame c.pending] := by
  have hsome := gwHandle_isSome (f := c.front) (fun _ => hmalloc) g c
  obtain ⟨⟨g', c'⟩, hhandle⟩ := Option.isSome_iff_exists.1 hsome
  rw [gwProcessRound_of_complete (hc.whole_iff.1 h) hhandle, ← hc.front_eq h]
  exact ⟨(handled_of_gwHandle hhandle).recv_eq.2.2, rfl⟩

/-- A round that ends the loop without marking the connection leaves an unfinished frame. -/
theorem unfinished_of_gwProcessRound {env : FrameEnv} {g : Ctx}
    (hend : (gwProcessRound env g c).2.2 = false)
    (hstate : (gwProcessRound env g c).2.1.state = .reading) :
    Unfinished (gwProcessRound env g c).2.1.pending := by
  have hlen := hc.readable_eq_length
  unfold gwProcessRound at hend hstate ⊢
  split
  case isTrue hshort => exact .inl (hlen ▸ hshort)
  case isFalse hlong =>
    rw [if_neg hlong] at hend hstate
    split
    case isTrue hbad =>
      rw [if_pos hbad] at hstate
      cases hstate
    case isFalse hgood =>
      rw [if_neg hgood] at hend hstate
      split
      case isTrue hless =>
        rw [hc.msgLen_eq (by omega), not_or, Nat.not_lt, Nat.not_lt] at hgood
        rw [hc.msgLen_eq (by omega), hlen] at hless
        exact .inr ⟨hgood.1, hgood.2, hless⟩
      case isFalse hall =>
        rw [if_neg hall] at hend hstate
        cases hhandle : gwHandle env g c c.front with
        | none =>
            rw [hhandle] at hstate
            cases hstate
        | some p =>
            rw [hhandle] at hend
            cases hend

end Rounds

/-! ### The invariant -/

/-- The connection satisfies the invariant of its stream, and every frame handled on it was shorter
than the ring. -/
structure Fits (c : Conn) : Prop where
  framed : Framed c
  shorter : ∀ f ∈ c.handled, f.size < btCfgRecvBufSize

theorem Fits.congr {c c' : Conn} (hc : Fits c) (h : SameStream c c') : Fits c' :=
  ⟨hc.framed.congr h, h.handled ▸ hc.shorter⟩

theorem fits_blank (fd : ℤ) : Fits (.blank fd) := ⟨framed_blank fd, nofun⟩

/-- **The invariant**: every frame handled was shorter than the ring, and outside `gw_process_data`
a connection that is not marked has an unfinished frame in its ring. -/
structure Receiving (s : Sys) : Prop where
  fits : ∀ i, Fits (s.conns i)
  unfinished : ∀ i, s.pc.processing ≠ some i → (s.conns i).state = .reading →
    Unfinished (s.conns i).pending

theorem unfinished_nil : Unfinished [] := .inl (by decide)

theorem receiving_btGatewayCreate (maxConns : ℕ) : Receiving (btGatewayCreate maxConns) :=
  ⟨fun _ => fits_blank _, fun _ _ _ => unfinished_nil⟩

theorem fits_store {c : Conn} {bytes : List UInt8} (hc : Fits c)
    (hroom : bytes.length ≤ c.readRoom) (now : UInt64) : Fits (c.store bytes now) :=
  ⟨framed_store hc.framed hroom now, hc.shorter⟩

/-- The frame that a round takes off the ring was whole, so it was shorter than the ring. -/
theorem fits_round {env : FrameEnv} {g g' : Ctx} {c c' : Conn} {goesOn : Bool} (hc : Fits c)
    (h : Round env g c g' c' goesOn) : Fits c' := by
  refine ⟨(framed_round hc.framed h).1, ?_⟩
  cases h with
  | short | badLength | incomplete | noMemory => exact hc.shorter
  | frame hfront hhandled =>
      have hwhole := hc.framed.whole_iff.2 hfront
      have hsize : c.front.size < btCfgRecvBufSize :=
        calc c.front.size = c.msgLen := hc.framed.size_front hwhole
          _ ≤ c.readable := hfront.2.2.2
          _ < btCfgRecvBufSize := hc.framed.readable_lt
      intro f hf
      rcases List.mem_append.1 hf with hold | hnew
      · exact hc.shorter f hold
      · rw [List.mem_singleton.1 hnew]
        exact hsize

/-- **No step takes a mark back**, unless it puts a new connection into the slot. -/
theorem reading_of_step {s s' : Sys} {a : Act} (h : step s a = some s') (j : ℕ)
    (hj : (s'.conns j).state = .reading) :
    (s.conns j).state = .reading ∨ ∃ cfd now, s'.conns j = .accepted cfd now := by
  have hupdate : ∀ {i : ℕ} {c : Conn}, s'.conns = Function.update s.conns i c →
      (c.state = .reading → (s.conns i).state = .reading) → (s.conns j).state = .reading := by
    intro i c hconns hc
    rw [hconns] at hj
    exact rel_update (r := fun c c' => c'.state = .reading → c.state = .reading) (fun _ => id) hc
      j hj
  cases touches_of_step h with
  | sends hpc hpc' hctx hconns => exact .inl ((hconns j).reading hj)
  | @opened _ i cfd now hpc hpc' hctx hfree hconns =>
      by_cases hij : j = i
      · exact .inr ⟨cfd, now, by rw [hconns, hij, Function.update_self]⟩
      · rw [hconns, Function.update_of_ne hij] at hj
        exact .inl hj
  | closed hpc hpc' hctx hsent hconns => exact .inl (hupdate hconns hsent.reading)
  | stored hpc hpos hroom => exact .inl (hupdate rfl id)
  | @round i flags rest env hpc =>
      refine .inl (hupdate rfl fun hreading => ?_)
      rcases (sameSocket_gwProcessRound env s.ctx (s.conns i)).2 with hsame | hclosing
      · exact hsame.symm.trans hreading
      · cases hclosing.symm.trans hreading

/-- **The invariant is kept.** -/
theorem step_receiving {s s' : Sys} {a : Act} (hs : Receiving s) (h : step s a = some s') :
    Receiving s' := by
  have hreading := reading_of_step h
  have hrest : s.pc.processing = none → ∀ j, (s.conns j).state = .reading →
      Unfinished (s.conns j).pending := fun hpc j => hs.unfinished j (by rw [hpc]; nofun)
  cases stream_of_step h with
  | quiet hpc hpc' hctx hconns =>
      refine ⟨fun j => (hs.fits j).congr (hconns j), fun j _ hj => ?_⟩
      rcases hreading j hj with hbefore | ⟨cfd, now, hnew⟩
      · rw [(hconns j).pending_eq]
        exact hrest hpc j hbefore
      · rw [hnew]
        exact unfinished_nil
  | @opened _ _ i cfd now hpc hpc' hctx hconns =>
      have hnew : Fits (.accepted cfd now) := (fits_blank cfd).congr ⟨rfl, rfl, rfl, rfl, rfl, rfl⟩
      refine ⟨hconns ▸ all_update hs.fits hnew, fun j _ hj => ?_⟩
      rw [hconns] at hj ⊢
      by_cases hij : j = i
      · rw [hij, Function.update_self]
        exact unfinished_nil
      · rw [Function.update_of_ne hij] at hj ⊢
        exact hrest hpc j hj
  | @stored i flags rest bytes now hpc hpos hroom =>
      refine ⟨all_update hs.fits (fits_store (hs.fits i) hroom now), fun j hother hj => ?_⟩
      have hne : j ≠ i := fun hij => hother (hij ▸ rfl)
      simp only [Sys.put, Function.update_of_ne hne] at hj ⊢
      exact hrest hpc j hj
  | @round i flags rest env hpc =>
      refine ⟨all_update hs.fits
        (fits_round (hs.fits i) (round_of_gwProcessRound env s.ctx (s.conns i))),
        fun j hother hj => ?_⟩
      simp only [frameStep, Sys.put] at hother hj ⊢
      by_cases hij : j = i
      · subst hij
        rw [Function.update_self] at hj ⊢
        refine unfinished_of_gwProcessRound (hs.fits j).framed ?_ hj
        -- the loop has ended, or it would still be at work on the slot
        by_contra hon
        rw [Bool.not_eq_false] at hon
        simp [hon, Pc.processing] at hother
      · rw [Function.update_of_ne hij] at hj ⊢
        refine hs.unfinished j ?_ hj
        rw [hpc]
        exact fun hsome => hij (Option.some.inj hsome).symm

/-! ### Room in the ring -/

/-- **There is room** unless the ring holds all but the last byte of a frame of the largest
length. -/
theorem writable_iff {c : Conn} (hc : Framed c) (h : Unfinished c.pending) :
    1 ≤ gwRingWritable c.recvHead c.recvTail bufCapacity.mask ↔
      ¬ (lengthField c.pending = btCfgRecvBufSize ∧ c.pending.length + 1 = btCfgRecvBufSize) := by
  have hlen := hc.readable_eq_length
  have hlt : c.readable < btCfgRecvBufSize := hc.readable_lt
  have hmask : bufCapacity.mask + 1 = btCfgRecvBufSize := bufCapacity.mask_add_one
  have hsize : 5 < btCfgRecvBufSize := by decide
  change 1 ≤ bufCapacity.mask - c.readable ↔ _
  unfold Unfinished at h
  omega

/-- A byte can be read while there is room for it. -/
theorem one_le_readRoom {c : Conn} (hc : Framed c)
    (hroom : c.pending.length + 1 < btCfgRecvBufSize) : 1 ≤ c.readRoom := by
  have hlen := hc.readable_eq_length
  have hmask : bufCapacity.mask + 1 = btCfgRecvBufSize := bufCapacity.mask_add_one
  have htail : c.recvTail < btCfgRecvBufSize := hc.tail ▸ bufCapacity.index_lt _
  refine le_min (by omega) ?_
  change 1 ≤ bufCapacity.mask - c.readable
  omega

/-! ### The rest of a frame -/

/-- Bytes that arrive one at a time, with the round of `gw_process_data` after each of them. -/
def deliver (env : FrameEnv) (bytes : List UInt8) : List Act :=
  bytes.flatMap fun b => [.read (.data [b] 0), .frame env]

/-- In some continuation exactly the rest of the frame `bs` is received in slot `i`, and the frame
is handled. -/
def Completable (s : Sys) (i : ℕ) (bs : List UInt8) : Prop :=
  ∃ as t, run step s as = some t ∧
    (t.conns i).received = (s.conns i).received ++ bs.drop (s.conns i).pending.length ∧
    (t.conns i).handled = (s.conns i).handled ++ [firstFrame bs]

section Deliver

variable {s : Sys} {i : ℕ} {flags : Flags} {rest : List Event} {env : FrameEnv}

/-- The state after some bytes were read and a round was made. -/
theorem run_bytes (hpc : s.pc = .read i flags rest) {bytes : List UInt8} (hpos : 1 ≤ bytes.length)
    (hroom : bytes.length ≤ (s.conns i).readRoom) (as : List Act) :
    run step s (.read (.data bytes 0) :: .frame env :: as) =
      run step (frameStep (s.put i ((s.conns i).store bytes 0) (.process i flags rest)) i flags rest
        env) as := by
  have hread : step s (.read (.data bytes 0)) =
      some (s.put i ((s.conns i).store bytes 0) (.process i flags rest)) := by
    simp only [step, hpc, readStep]
    rw [if_neg (by omega), if_pos ⟨hpos, hroom⟩]
  rw [run_cons_eq hread, run_cons_eq rfl]

/-- If the bytes leave the frame unfinished, the round returns to the read loop. -/
theorem run_bytes_of_unfinished (hpc : s.pc = .read i flags rest) (hc : Framed (s.conns i))
    {bytes : List UInt8} (hpos : 1 ≤ bytes.length) (hroom : bytes.length ≤ (s.conns i).readRoom)
    (h : Unfinished ((s.conns i).pending ++ bytes)) (as : List Act) :
    run step s (.read (.data bytes 0) :: .frame env :: as) =
      run step (s.put i ((s.conns i).store bytes 0) (.read i flags rest)) as := by
  rw [← hc.pending_store bytes 0] at h
  have hround := gwProcessRound_of_unfinished (framed_store hc hroom 0) h env s.ctx
  rw [run_bytes hpc hpos hroom]
  simp [frameStep, Sys.put, hround]

/-- **The rest of a frame that is shorter than the ring can be delivered byte by byte**, and the
frame is then handled. -/
theorem run_deliver (hpc : s.pc = .read i flags rest) (hc : Framed (s.conns i))
    (hmalloc : env.mallocOk = true) {b : UInt8} {bs : List UInt8}
    (hframe : AcceptedFrame ((s.conns i).pending ++ b :: bs))
    (hshort : ((s.conns i).pending ++ b :: bs).length < btCfgRecvBufSize) :
    ∃ t, run step s (deliver env (b :: bs)) = some t ∧
      (t.conns i).received = (s.conns i).received ++ b :: bs ∧
      (t.conns i).handled =
        (s.conns i).handled ++ [firstFrame ((s.conns i).pending ++ b :: bs)] := by
  induction bs generalizing s b with
  | nil =>
      -- the last byte completes the frame
      have hroom : [b].length ≤ (s.conns i).readRoom :=
        one_le_readRoom hc (by simpa using hshort)
      have hc' := framed_store hc hroom 0
      have hpending := hc.pending_store [b] 0
      obtain ⟨hreceived, hhandled⟩ :=
        gwProcessRound_of_whole hc' (hpending ▸ hframe.whole) hmalloc s.ctx
      rw [hpending] at hhandled
      refine ⟨_, run_bytes hpc le_rfl hroom [], ?_, ?_⟩
      · simp only [frameStep, Sys.put, Function.update_self]
        exact hreceived
      · simp only [frameStep, Sys.put, Function.update_self]
        exact hhandled
  | cons b' bs ih =>
      have hlen : (s.conns i).pending.length + 1 < btCfgRecvBufSize := by
        rw [List.length_append, List.length_cons] at hshort
        omega
      have hroom : [b].length ≤ (s.conns i).readRoom := one_le_readRoom hc hlen
      have hc' := framed_store hc hroom 0
      have hmore : (s.conns i).pending ++ b :: b' :: bs =
          (s.conns i).pending ++ [b] ++ b' :: bs := by
        rw [List.append_assoc, List.singleton_append]
      rw [hmore] at hframe hshort ⊢
      -- another byte is to come, so the loop returns to the read loop with this one in the ring
      have hunfinished := hframe.unfinished (List.cons_ne_nil b' bs)
      rw [← hc.pending_store [b] 0] at hframe hshort ⊢
      let s₁ := s.put i ((s.conns i).store [b] 0) (.read i flags rest)
      have hself : s₁.conns i = (s.conns i).store [b] 0 := Function.update_self _ _ _
      obtain ⟨t, hrun, hreceived, hhandled⟩ :=
        ih (s := s₁) rfl (hself ▸ hc') (hself ▸ hframe) (hself ▸ hshort)
      rw [hself] at hreceived hhandled
      refine ⟨t, ?_, ?_, hhandled⟩
      · rw [← hrun]
        exact run_bytes_of_unfinished hpc hc le_rfl hroom hunfinished _
      · rw [hreceived]
        exact List.append_assoc _ [b] (b' :: bs)

end Deliver

/-! ### Which frames can be received -/

/-- What is demanded of the connection in slot `i`, outside `gw_process_data` and while it is not
marked: the ring has room unless it holds all but the last byte of a frame of the largest length,
and in the read loop a frame of an accepted length whose beginning is in the ring can be completed
exactly when it is shorter than that. -/
structure ReceivesFrames (s : Sys) (i : ℕ) : Prop where
  room : 1 ≤ gwRingWritable (s.conns i).recvHead (s.conns i).recvTail bufCapacity.mask ↔
    ¬ (lengthField (s.conns i).pending = btCfgRecvBufSize ∧
      (s.conns i).pending.length + 1 = btCfgRecvBufSize)
  completes : ∀ flags rest bs, s.pc = .read i flags rest → AcceptedFrame bs →
    (s.conns i).pending <+: bs → (Completable s i bs ↔ bs.length ≠ btCfgRecvBufSize)

/-- No continuation handles a frame of the largest length. -/
theorem not_completable {s : Sys} {i : ℕ} {bs : List UInt8} (hs : Receiving s)
    (hframe : AcceptedFrame bs) (hmax : bs.length = btCfgRecvBufSize) : ¬ Completable s i bs := by
  rintro ⟨as, t, hrun, -, hhandled⟩
  have ht : Receiving t :=
    run_induction (G := fun _ _ => True) (fun _ _ _ hs _ h => step_receiving hs h) hs
      (along_of_forall (fun _ _ => trivial) s as) hrun
  have hless := (ht.fits i).shorter (firstFrame bs) (by simp [hhandled])
  rw [hframe.size_firstFrame] at hless
  omega

theorem Receiving.receivesFrames {s : Sys} (hs : Receiving s) {i : ℕ}
    (hpc : s.pc.processing ≠ some i) (hstate : (s.conns i).state = .reading) :
    ReceivesFrames s i := by
  have hc := (hs.fits i).framed
  refine ⟨writable_iff hc (hs.unfinished i hpc hstate), fun flags rest bs hread hframe hpre => ?_⟩
  constructor
  · exact fun hcan hmax => not_completable hs hframe hmax hcan
  · intro hne
    have hshort := lt_of_le_of_ne hframe.le_max hne
    obtain ⟨more, rfl⟩ := hpre
    cases more with
    | nil =>
        -- outside the loop no whole frame is in the ring
        rw [List.append_nil] at hframe
        obtain ⟨heq, hmin, -⟩ := hframe
        have hunfinished := hs.unfinished i hpc hstate
        unfold Unfinished at hunfinished
        omega
    | cons b more =>
        obtain ⟨t, hrun, hreceived, hhandled⟩ :=
          run_deliver hread hc (show FrameEnv.calm.mallocOk = true from rfl) hframe hshort
        exact ⟨_, t, hrun, by rw [hreceived, List.drop_left], hhandled⟩

/-- **A frame of an accepted length can be completed exactly when it is shorter than the ring.**  In
every state of every run, a connection that is not marked has room to read whenever
`gw_process_data` has returned, and can receive and handle any frame of an accepted length, except
for a frame of exactly `BT_CFG_RECV_BUF_SIZE` bytes, which is never handled. -/
theorem receives_frames (maxConns : ℕ) (as : List Act) :
    Throughout step (fun s => ∀ i, s.pc.processing ≠ some i → (s.conns i).state = .reading →
      ReceivesFrames s i) (btGatewayCreate maxConns) as :=
  throughout_of_invariant (I := Receiving) (G := fun _ _ => True)
    (fun _ _ _ hs _ h => step_receiving hs h)
    (fun _ hs _ hpc hstate => hs.receivesFrames hpc hstate) (receiving_btGatewayCreate maxConns)
    (along_of_forall (fun _ _ => trivial) _ as)

/-- All but the last byte of a frame of `65536` bytes. -/
def largestFrameBytes : List UInt8 := [0, 1, 0, 0] ++ List.replicate 65531 0

/-- A client connects and sends them. -/
def largestFrameRun : List Act :=
  (acceptTurn 3 ++ readTurn 0) ++ [.read (.data largestFrameBytes 0), .frame .calm]

/-- The thread is in the read loop of slot `i`. -/
def Pc.readsFrom (i : ℕ) : Pc → Bool
  | .read j _ _ => decide (j = i)
  | _ => false

/-- **A frame of the largest length wedges its connection**: `gw_process_data` has returned, the
connection is not marked, and there is no room for the last byte. -/
theorem largest_frame_wedges :
    ∃ s, run step (btGatewayCreate 1) largestFrameRun = some s ∧ s.pc.readsFrom 0 = true ∧
      (s.conns 0).state = .reading ∧ lengthField (s.conns 0).pending = 65536 ∧
      gwRingWritable (s.conns 0).recvHead (s.conns 0).recvTail bufCapacity.mask = 0 := by
  obtain ⟨s, hrun, flags, rest, hpc, hconn⟩ : ∃ s, run step (btGatewayCreate 1)
      (acceptTurn 3 ++ readTurn 0) = some s ∧ ∃ flags rest, s.pc = .read 0 flags rest ∧
        s.conns 0 = .accepted 3 0 := ⟨_, rfl, _, _, rfl, rfl⟩
  have hlen : largestFrameBytes.length = 65535 := by
    rw [largestFrameBytes, List.length_append, List.length_replicate]
    rfl
  have hfield : lengthField largestFrameBytes = 65536 := by
    rw [largestFrameBytes, lengthField_append le_rfl]
    rfl
  have hc : Framed (s.conns 0) := hconn ▸ (framed_blank 3).congr ⟨rfl, rfl, rfl, rfl, rfl, rfl⟩
  have hempty : (s.conns 0).pending = [] := by rw [hconn]; rfl
  have hroom : largestFrameBytes.length ≤ (s.conns 0).readRoom := by
    rw [hlen, hconn]
    decide
  have hunfinished : Unfinished ((s.conns 0).pending ++ largestFrameBytes) := by
    rw [hempty, List.nil_append, Unfinished, hfield, hlen]
    decide
  have hpending : ((s.conns 0).store largestFrameBytes 0).pending = largestFrameBytes := by
    rw [hc.pending_store, hempty, List.nil_append]
  have hfull := (framed_store hc hroom 0).readable_eq_length
  rw [hpending, hlen] at hfull
  refine ⟨s.put 0 ((s.conns 0).store largestFrameBytes 0) (.read 0 flags rest), ?_, rfl, ?_⟩
  · rw [largestFrameRun, run_append_eq hrun]
    exact run_bytes_of_unfinished hpc hc (by omega) hroom hunfinished []
  · simp only [Sys.put, Function.update_self, hpending]
    refine ⟨?_, hfield, ?_⟩
    · rw [hconn]
      rfl
    · change bufCapacity.mask - ((s.conns 0).store largestFrameBytes 0).readable = 0
      rw [hfull]
      rfl

end Gateway
