/-
**How many orders a connection gets through in a second.**

`gw_push_order` counts the orders of a connection in a window that starts with the first push more
than a second after the start of the window before.  So the limit holds for every window, but not
for every second: the orders of one window may all come at its end, and those of the next one right
after it.  This module proves that this is the worst that can happen, for any requests, any changes
of the shared context in between, and any clock that does not go backwards.

Main definitions:

* `Gateway.Paced`, `Gateway.PacedAct`, `Gateway.pacedStep` — the pushes of one connection, with the
  times of the orders that were enqueued;
* `Gateway.Paced.enqueuedIn` — the number of orders enqueued in an interval of time;
* `Gateway.Windowed` — the invariant: the orders of the current window, and those before it.

Main results:

* `Gateway.step_windowed` — the invariant is kept;
* `Gateway.enqueued_per_second_le` — **in every second at most twice the limit is enqueued**;
* `Gateway.burst_across_windows` — twice the limit can be enqueued within a nanosecond.
-/

import AspiraBroker.GatewayOrders
import AspiraBroker.GatewayThread

set_option relaxedAutoImplicit false
set_option autoImplicit false

namespace Gateway

open Transition

/-! ### The pushes of one connection -/

/-- The length of a rate window, and of the intervals the limit speaks of, in nanoseconds. -/
def oneSecond : ℕ := 1000000000

/-- The shared context and a connection, the last reading of the clock, and the times at which
orders of the connection were enqueued. -/
structure Paced where
  ctx : Ctx
  conn : Conn
  clock : UInt64
  times : List UInt64

/-- An order arrives on the connection, or the other connections change the context. -/
inductive PacedAct
  | push (env : FrameEnv) (req : OrderRequest)
  | others (ctx : Ctx)

/-- One step; the clock does not go backwards. -/
def pacedStep (s : Paced) : PacedAct → Option Paced
  | .push env req =>
      if s.clock ≤ env.now then
        let r := gwPushOrder env s.ctx s.conn req
        some ⟨r.1, r.2, env.now,
          if s.ctx.enqueued.length < r.1.enqueued.length then s.times ++ [env.now] else s.times⟩
      else none
  | .others ctx => some { s with ctx }

/-- A connection that has just been accepted. -/
def Paced.start (ctx : Ctx) (cfd : ℕ) (now : UInt64) : Paced := ⟨ctx, .accepted cfd now, now, []⟩

/-- The times that lie in an interval. -/
def countIn (times : List UInt64) (a b : ℕ) : ℕ :=
  times.countP fun t => decide (a ≤ t.toNat ∧ t.toNat ≤ b)

/-- The number of orders that were enqueued between two times, both included. -/
def Paced.enqueuedIn (s : Paced) (a b : ℕ) : ℕ := countIn s.times a b

/-- Everything a step can do: the context changes, the push only moves the rate window on or counts
an order that the queue did not take, or the order is enqueued. -/
inductive PacedSteps (s : Paced) : Paced → Prop
  | others (ctx : Ctx) : PacedSteps s { s with ctx }
  | kept {now : UInt64} {ctx : Ctx} {conn : Conn} (hclock : s.clock ≤ now)
      (hconn : conn = s.conn.rateWindow now ∨
        (s.conn.rateWindow now).rateCount < btCfgRateLimitRps ∧
        conn = { s.conn.rateWindow now with rateCount := (s.conn.rateWindow now).rateCount + 1 }) :
      PacedSteps s ⟨ctx, conn, now, s.times⟩
  | enqueued {now : UInt64} {ctx : Ctx} (hclock : s.clock ≤ now)
      (hrate : (s.conn.rateWindow now).rateCount < btCfgRateLimitRps) :
      PacedSteps s ⟨ctx,
        { s.conn.rateWindow now with rateCount := (s.conn.rateWindow now).rateCount + 1 }, now,
        s.times ++ [now]⟩

theorem pacedSteps_of_step {s s' : Paced} {a : PacedAct} (h : pacedStep s a = some s') :
    PacedSteps s s' := by
  cases a with
  | others ctx =>
      obtain rfl := Option.some.inj h
      exact .others ctx
  | push env req =>
      simp only [pacedStep, Option.ite_none_right_eq_some, Option.some.injEq] at h
      obtain ⟨hclock, rfl⟩ := h
      rw [conn_gwPushOrder, enqueued_gwPushOrder]
      by_cases hpass : Passes env s.ctx s.conn req
      · cases hpush : env.pushOk with
        | true =>
            simp only [hpass, and_self, if_true, List.length_append, List.length_singleton,
              Nat.lt_succ_self]
            exact .enqueued hclock hpass.1
        | false =>
            simp only [hpass, Bool.false_eq_true, and_false, if_false, if_true, List.append_nil,
              lt_irrefl]
            exact .kept hclock (Or.inr ⟨hpass.1, rfl⟩)
      · simp only [hpass, false_and, if_false, List.append_nil, lt_irrefl]
        exact .kept hclock (Or.inl rfl)

/-! ### The invariant -/

/-- The limit for every second. -/
def EverySecond (limit : ℕ) (times : List UInt64) : Prop :=
  ∀ a b, b ≤ a + oneSecond → countIn times a b ≤ limit

/-- **The invariant**: the orders of the current window are counted, and of those before it at most
the limit came within a second before the window started. -/
structure Windowed (s : Paced) : Prop where
  window : s.conn.rateWindowStart ≤ s.clock
  count : s.conn.rateCount ≤ btCfgRateLimitRps
  split : ∃ before current, s.times = before ++ current ∧ current.length ≤ s.conn.rateCount ∧
    (∀ t ∈ before, t ≤ s.conn.rateWindowStart) ∧
    countIn before (s.conn.rateWindowStart.toNat - oneSecond) s.conn.rateWindowStart.toNat
      ≤ btCfgRateLimitRps
  past : ∀ t ∈ s.times, t ≤ s.clock
  bound : EverySecond (2 * btCfgRateLimitRps) s.times

theorem countIn_append (l l' : List UInt64) (a b : ℕ) :
    countIn (l ++ l') a b = countIn l a b + countIn l' a b := List.countP_append

theorem countIn_le_length (l : List UInt64) (a b : ℕ) : countIn l a b ≤ l.length :=
  List.countP_le_length

/-- A time in one interval that is one of the list's is in the other. -/
theorem countIn_le_countIn {l : List UInt64} {a b a' b' : ℕ}
    (h : ∀ t ∈ l, a ≤ t.toNat → t.toNat ≤ b → a' ≤ t.toNat ∧ t.toNat ≤ b') :
    countIn l a b ≤ countIn l a' b' := by
  refine List.countP_mono_left fun t ht hin => ?_
  simp only [decide_eq_true_eq] at hin ⊢
  exact h t ht hin.1 hin.2

theorem windowed_start (ctx : Ctx) (cfd : ℕ) (now : UInt64) : Windowed (.start ctx cfd now) where
  window := UInt64.le_refl _
  count := Nat.zero_le _
  split := ⟨[], [], rfl, Nat.zero_le _, nofun, Nat.zero_le _⟩
  past := nofun
  bound := fun _ _ _ => Nat.zero_le _

/-- A push that moves the rate window on keeps the invariant. -/
theorem Windowed.rateWindow {s : Paced} (h : Windowed s) {now : UInt64} (hclock : s.clock ≤ now)
    (ctx : Ctx) : Windowed ⟨ctx, s.conn.rateWindow now, now, s.times⟩ := by
  obtain ⟨hwindow, hcount, ⟨before, current, htimes, hlen, hold, hbefore⟩, hpast, hbound⟩ := h
  have hpast' : ∀ t ∈ s.times, t ≤ now := fun t ht => UInt64.le_trans (hpast t ht) hclock
  have hle : s.conn.rateWindowStart ≤ now := UInt64.le_trans hwindow hclock
  unfold Conn.rateWindow
  split
  case isFalse =>
    exact ⟨hle, hcount, ⟨before, current, htimes, hlen, hold, hbefore⟩, hpast', hbound⟩
  case isTrue hover =>
    refine ⟨UInt64.le_refl _, Nat.zero_le _,
      ⟨s.times, [], (List.append_nil _).symm, le_rfl, hpast', ?_⟩, hpast', hbound⟩
    -- what was before the old window is more than a second old, so only the old window counts
    have hsub : (now - s.conn.rateWindowStart).toNat =
        now.toNat - s.conn.rateWindowStart.toNat := UInt64.toNat_sub_of_le _ _ hle
    have hgap : s.conn.rateWindowStart.toNat + oneSecond < now.toNat := by
      have := UInt64.lt_iff_toNat_lt.1 hover
      rw [hsub] at this
      simp only [oneSecond]
      have h9 : (1000000000 : UInt64).toNat = 1000000000 := by decide
      omega
    have hnone : countIn before (now.toNat - oneSecond) now.toNat = 0 := by
      refine List.countP_eq_zero.2 fun t ht => ?_
      have := UInt64.le_iff_toNat_le.1 (hold t ht)
      simp only [decide_eq_true_eq]
      omega
    have hcurrent := countIn_le_length current (now.toNat - oneSecond) now.toNat
    change countIn s.times (now.toNat - oneSecond) now.toNat ≤ btCfgRateLimitRps
    rw [htimes, countIn_append, hnone]
    omega

/-- An order that is enqueued within the rate keeps the invariant. -/
theorem Windowed.enqueue {s : Paced} (h : Windowed s)
    (hrate : s.conn.rateCount < btCfgRateLimitRps) :
    Windowed { s with
      conn := { s.conn with rateCount := s.conn.rateCount + 1 }
      times := s.times ++ [s.clock] } := by
  obtain ⟨hwindow, hcount, ⟨before, current, htimes, hlen, hold, hbefore⟩, hpast, hbound⟩ := h
  refine ⟨hwindow, hrate, ⟨before, current ++ [s.clock], ?_, ?_, hold, hbefore⟩, ?_, ?_⟩
  · rw [htimes, List.append_assoc]
  · rw [List.length_append, List.length_singleton]
    exact Nat.succ_le_succ hlen
  · intro t ht
    rcases List.mem_append.1 ht with hin | hlast
    · exact hpast t hin
    · rw [List.mem_singleton.1 hlast]
      exact UInt64.le_refl _
  · intro a b hab
    by_cases hnow : a ≤ s.clock.toNat ∧ s.clock.toNat ≤ b
    · -- the interval goes back at most a second from now, so at most a second from the window
      have hw := UInt64.le_iff_toNat_le.1 hwindow
      have hearly : countIn before a b ≤ btCfgRateLimitRps := by
        refine le_trans (countIn_le_countIn fun t ht hat htb => ?_) hbefore
        have := UInt64.le_iff_toNat_le.1 (hold t ht)
        omega
      have hlate := countIn_le_length (current ++ [s.clock]) a b
      rw [List.length_append, List.length_singleton] at hlate
      change countIn (s.times ++ [s.clock]) a b ≤ _
      rw [htimes, List.append_assoc, countIn_append]
      omega
    · have hsingle : countIn [s.clock] a b = 0 := by simp [countIn, hnow]
      change countIn (s.times ++ [s.clock]) a b ≤ _
      rw [countIn_append, hsingle]
      exact hbound a b hab

/-- **The invariant is kept.** -/
theorem step_windowed {s s' : Paced} {a : PacedAct} (h : Windowed s)
    (hstep : pacedStep s a = some s') : Windowed s' := by
  cases pacedSteps_of_step hstep with
  | others ctx => exact ⟨h.window, h.count, h.split, h.past, h.bound⟩
  | @kept now ctx conn hclock hconn =>
      have hw := h.rateWindow hclock ctx
      rcases hconn with rfl | ⟨hrate, rfl⟩
      · exact hw
      · obtain ⟨before, current, htimes, hlen, hold, hbefore⟩ := hw.split
        exact ⟨hw.window, hrate,
          ⟨before, current, htimes, hlen.trans (Nat.le_succ _), hold, hbefore⟩, hw.past, hw.bound⟩
  | @enqueued now ctx hclock hrate => exact (h.rateWindow hclock ctx).enqueue hrate

/-- **In every second at most twice the limit is enqueued**, for every connection from its accept
on, any requests, anything the other connections do, and every clock that does not go backwards. -/
theorem enqueued_per_second_le (ctx : Ctx) (cfd : ℕ) (now : UInt64) (acts : List PacedAct) :
    Throughout pacedStep
      (fun s => ∀ a b, b ≤ a + oneSecond → s.enqueuedIn a b ≤ 2 * btCfgRateLimitRps)
      (.start ctx cfd now) acts :=
  throughout_of_invariant (G := fun _ _ => True) (fun _ _ _ h _ => step_windowed h)
    (fun _ h => h.bound) (windowed_start ctx cfd now) (along_of_forall (fun _ _ => trivial) _ acts)

/-- Orders without an id, one after the other at the same time. -/
def burst (now : UInt64) (n : ℕ) : List PacedAct :=
  List.replicate n (.push { FrameEnv.calm with now } (OrderRequest.blank 0))

/-- A window that is up to date is not moved on. -/
theorem rateWindow_eq_self {c d : Conn} {now : UInt64}
    (h : c.rateWindowStart = (d.rateWindow now).rateWindowStart) : c.rateWindow now = c := by
  refine if_neg ?_
  rw [h, Conn.rateWindow]
  split
  case isTrue => simp
  case isFalse hnot => exact hnot

/-- A burst within the rate is enqueued. -/
theorem run_burst {s : Paced} (now : UInt64) (n : ℕ) (hclock : s.clock ≤ now)
    (hrate : (s.conn.rateWindow now).rateCount + n ≤ btCfgRateLimitRps) :
    ∃ t, run pacedStep s (burst now n) = some t ∧ t.times = s.times ++ List.replicate n now ∧
      t.clock ≤ now ∧
      (t.conn.rateWindow now).rateWindowStart = (s.conn.rateWindow now).rateWindowStart := by
  induction n generalizing s with
  | zero => exact ⟨s, rfl, (List.append_nil _).symm, hclock, rfl⟩
  | succ n ih =>
      let env : FrameEnv := { FrameEnv.calm with now }
      let r := gwPushOrder env s.ctx s.conn (OrderRequest.blank 0)
      have hpass : Passes env s.ctx s.conn (OrderRequest.blank 0) :=
        ⟨show (s.conn.rateWindow now).rateCount < btCfgRateLimitRps by omega, fun h => absurd rfl h⟩
      have hconn : r.2 =
          { s.conn.rateWindow now with rateCount := (s.conn.rateWindow now).rateCount + 1 } := by
        rw [conn_gwPushOrder, if_pos hpass]
      have hlonger : s.ctx.enqueued.length < r.1.enqueued.length := by
        rw [enqueued_gwPushOrder, if_pos ⟨hpass, rfl⟩]
        simp
      have hstep : pacedStep s (.push env (OrderRequest.blank 0)) =
          some ⟨r.1, r.2, now, s.times ++ [now]⟩ := by
        simp only [pacedStep]
        rw [if_pos (show s.clock ≤ env.now from hclock), if_pos hlonger]
      have hwindow : r.2.rateWindow now = r.2 := rateWindow_eq_self (by rw [hconn])
      obtain ⟨t, hrun, htimes, htclock, htwindow⟩ :=
        ih (s := ⟨r.1, r.2, now, s.times ++ [now]⟩) (UInt64.le_refl _) (by
          change (r.2.rateWindow now).rateCount + n ≤ _
          rw [hwindow, hconn]
          change (s.conn.rateWindow now).rateCount + 1 + n ≤ _
          omega)
      refine ⟨t, ?_, ?_, htclock, ?_⟩
      · rw [burst, List.replicate_succ, run_cons_eq hstep]
        exact hrun
      · rw [htimes, List.replicate_succ, List.append_assoc]
        rfl
      · rw [htwindow]
        change (r.2.rateWindow now).rateWindowStart = _
        rw [hwindow, hconn]

/-- **Twice the limit is enqueued within a nanosecond**: at the end of a window and at the start of
the next one. -/
theorem burst_across_windows :
    ∃ s, run pacedStep (.start .blank 3 0)
        (burst 1000000000 btCfgRateLimitRps ++ burst 1000000001 btCfgRateLimitRps) = some s ∧
      s.enqueuedIn 1000000000 1000000001 = 2 * btCfgRateLimitRps := by
  obtain ⟨s, hs, hstimes, hsclock, hswindow⟩ :=
    run_burst (s := .start .blank 3 0) 1000000000 btCfgRateLimitRps (by decide) (by decide)
  -- the window is still the one of the accept, and over for the second burst
  have hstart : s.conn.rateWindowStart = 0 := by
    have hzero : (s.conn.rateWindow 1000000000).rateWindowStart = 0 := hswindow
    unfold Conn.rateWindow at hzero
    split at hzero
    · exact absurd hzero (show (1000000000 : UInt64) ≠ 0 by decide)
    · exact hzero
  have hnew : (s.conn.rateWindow 1000000001).rateCount = 0 := by
    rw [Conn.rateWindow, hstart, if_pos (by decide)]
  obtain ⟨t, ht, httimes, -, -⟩ :=
    run_burst (s := s) 1000000001 btCfgRateLimitRps
      (UInt64.le_trans hsclock (by decide)) (by rw [hnew, Nat.zero_add])
  refine ⟨t, by rw [run_append_eq hs]; exact ht, ?_⟩
  have hin : ∀ (now : UInt64) (n : ℕ), 1000000000 ≤ now.toNat → now.toNat ≤ 1000000001 →
      countIn (List.replicate n now) 1000000000 1000000001 = n := by
    intro now n hge hle
    rw [countIn, List.countP_replicate, if_pos (by simp [hge, hle])]
  rw [Paced.enqueuedIn, httimes, hstimes, countIn_append, countIn_append,
    hin 1000000000 _ (by decide) (by decide), hin 1000000001 _ (by decide) (by decide), Nat.two_mul]
  rfl

end Gateway
