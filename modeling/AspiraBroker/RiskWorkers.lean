/-
**Several risk workers on one multi-producer queue.**

`main` starts `BT_CFG_RISK_THREADS` risk workers on the single queue `g_risk_in_q`, which is a
queue for many producers and *one* consumer: `BT_MPSC_POP` loads the head, reads the slot and moves
the head on with a plain store.  A worker that stores the head after another one has moved it puts
it back to where it was, or ahead of messages that nobody has read.

Here pushes are atomic and any number of workers take the steps of their pops in any order.  Each
message carries the number of its push, which the code never looks at, so that a message can be told
from another one with the same content.

Main definitions:

* `RiskWorkers.Sys`, `RiskWorkers.Act`, `RiskWorkers.step`, `RiskWorkers.init` — the machine;
* `RiskWorkers.waiting` — the messages between the head and the tail;
* `RiskWorkers.ExactlyOnce` — no message was returned twice, and a message that was not returned is
  still between the cursors;
* `RiskWorkers.StoresOwnHead` — the head is stored only where the worker has found it;
* `RiskWorkers.Served` — the invariant.

Main results:

* `RiskWorkers.step_served` — the invariant is kept;
* `RiskWorkers.exactly_once_iff` — **a run delivers every message exactly once exactly when no
  worker stores a head that was moved under it**;
* `RiskWorkers.two_workers_take_one_message` — such a store can happen.
-/

import AspiraBroker.LockfreeQueue
import AspiraBroker.RingWindow
import AspiraBroker.TransitionRuns

set_option relaxedAutoImplicit false
set_option autoImplicit false

namespace RiskWorkers

open LockfreeQueue Ring Transition

universe u v

variable {κ : Type v} {α : Type u}

/-! ### The machine -/

/-- The queue `g_risk_in_q` with the number of its push on every message, where each worker stands
in its pop, the number of pushes that returned `1`, and what successful pops have returned. -/
structure Sys (κ : Type v) (α : Type u) where
  q : Queue (ℕ × α)
  pop : κ → PopPc (ℕ × α)
  pushes : ℕ
  popped : List (ℕ × α)

/-- A push, or a step of the pop of a worker. -/
inductive Act (κ : Type v) (α : Type u)
  | push (msg : α)
  | pop (k : κ)

/-- A freshly initialised queue, with all workers before their first pop. -/
def init (N : Capacity) (memory : ℕ → ℕ × α) : Sys κ α where
  q := queueInit N memory
  pop := fun _ => .loadHead
  pushes := 0
  popped := []

/-- One step of the machine.  A push is `BT_MPSC_PUSH` in one go; it returns `0` on a full ring. -/
def step [DecidableEq κ] (s : Sys κ α) : Act κ α → Option (Sys κ α)
  | .push msg =>
      let next := (s.q.tail + 1) &&& s.q.mask
      if next = s.q.head then some s
      else
        some { s with
          q := { s.q with
            tail := next
            buffer := Function.update s.q.buffer s.q.tail (s.pushes, msg) }
          pushes := s.pushes + 1 }
  | .pop k =>
      let r := mpscPopStep s.q (s.pop k)
      some { s with
        q := r.1
        pop := Function.update s.pop k r.2.1
        popped := s.popped ++ returned r.2.2 }

/-! ### What must hold, and when it does -/

/-- The messages between the head and the tail. -/
def waiting (N : Capacity) (s : Sys κ α) : List (ℕ × α) :=
  window N.slots s.q.buffer s.q.head (span N.slots s.q.head s.q.tail)

/-- No message was returned by two pops, and the head has not passed a message that no pop has
returned. -/
def ExactlyOnce (N : Capacity) (s : Sys κ α) : Prop :=
  (s.popped.map Prod.fst).Nodup ∧
    ∀ c < s.pushes, c ∈ s.popped.map Prod.fst ∨ c ∈ (waiting N s).map Prod.fst

/-- The head is stored only while it still is where the worker loaded it, on a queue that is not
empty and in a slot that still holds the message which the worker has read. -/
def StoresOwnHead (s : Sys κ α) : Act κ α → Prop
  | .push _ => True
  | .pop k =>
      match s.pop k with
      | .store h out => s.q.head = h ∧ h ≠ s.q.tail ∧ (s.q.buffer h).1 = out.1
      | _ => True

/-! ### The invariant -/

/-- What is known about where a worker stands when `T` messages were pushed and `H` popped.  The
head it loaded may be old, and once it has read the slot it holds some message of that slot. -/
def WorkerAt (n T H : ℕ) : PopPc (ℕ × α) → Prop
  | .loadHead => True
  | .loadTail h => ∃ H₀, H₀ ≤ H ∧ h = H₀ % n
  | .read h => ∃ H₀, H₀ < T ∧ h = H₀ % n
  | .store h out => out.1 < T ∧ h = out.1 % n

/-- **The invariant**: the counters agree with the cursors, the messages were returned in the order
of their pushes, and every slot that was used in the last lap holds the message of that lap. -/
structure Served (N : Capacity) (s : Sys κ α) : Prop where
  ring : Counters N s.q s.pushes s.popped.length
  order : s.popped.map Prod.fst = List.range s.popped.length
  filled : ∀ c, c < s.pushes → s.pushes ≤ c + N.slots → (s.q.buffer (c % N.slots)).1 = c
  worker : ∀ k, WorkerAt N.slots s.pushes s.popped.length (s.pop k)

theorem init_served (N : Capacity) (memory : ℕ → ℕ × α) : Served N (init N memory : Sys κ α) where
  ring := queueInit_counters N memory
  order := rfl
  filled := by intro c hc; simp [init] at hc
  worker := fun _ => trivial

/-- What is known about a worker survives pushes and pops. -/
theorem WorkerAt.mono {n T T' H H' : ℕ} {pc : PopPc (ℕ × α)} (h : WorkerAt n T H pc)
    (hT : T ≤ T') (hH : H ≤ H') : WorkerAt n T' H' pc := by
  cases pc with
  | loadHead => trivial
  | loadTail hd =>
      obtain ⟨H₀, hle, rfl⟩ := h
      exact ⟨H₀, hle.trans hH, rfl⟩
  | read hd =>
      obtain ⟨H₀, hlt, rfl⟩ := h
      exact ⟨H₀, hlt.trans_le hT, rfl⟩
  | store hd out => exact ⟨h.1.trans_le hT, h.2⟩

namespace Served

variable {N : Capacity} {s : Sys κ α}

/-- The messages that wait are those numbered from the pops up to the pushes. -/
theorem waiting_eq (h : Served N s) :
    (waiting N s).map Prod.fst =
      (List.range (s.pushes - s.popped.length)).map fun i => s.popped.length + i := by
  have hle := h.ring.le
  have hroom := h.ring.room
  rw [waiting, h.ring.head, h.ring.tail, span_mod hle hroom, window_mod_head, window, List.map_map]
  refine List.map_congr_left fun i hi => ?_
  have := List.mem_range.1 hi
  exact h.filled _ (by omega) (by omega)

theorem exactlyOnce (h : Served N s) : ExactlyOnce N s := by
  rw [ExactlyOnce, h.waiting_eq, h.order]
  refine ⟨List.nodup_range, fun c hc => ?_⟩
  rcases Nat.lt_or_ge c s.popped.length with hlt | hge
  · exact .inl (List.mem_range.2 hlt)
  · refine .inr (List.mem_map.2 ⟨c - s.popped.length, List.mem_range.2 (by omega), ?_⟩)
    omega

/-- A push writes the slot of a message that was taken a lap ago. -/
theorem push (h : Served N s) (hfree : ¬ (s.q.tail + 1) &&& s.q.mask = s.q.head) (msg : α) :
    Served N { s with
      q := { s.q with
        tail := (s.q.tail + 1) &&& s.q.mask
        buffer := Function.update s.q.buffer s.q.tail (s.pushes, msg) }
      pushes := s.pushes + 1 } := by
  have hroom : s.pushes + 1 < s.popped.length + N.slots := by
    have := mt h.ring.full_iff.2 hfree
    have := h.ring.room
    omega
  have hnext : (s.q.tail + 1) &&& s.q.mask = (s.pushes + 1) % N.slots := by
    rw [h.ring.tail, h.ring.mask, N.next_index]
  refine ⟨?_, h.order, fun c hc hlap => ?_, fun k => (h.worker k).mono (Nat.le_succ _) le_rfl⟩
  · rw [hnext]
    exact (h.ring.put hroom).setBuffer _
  · change c < s.pushes + 1 at hc
    change s.pushes + 1 ≤ c + N.slots at hlap
    change (Function.update s.q.buffer s.q.tail (s.pushes, msg) (c % N.slots)).1 = c
    rw [h.ring.tail]
    rcases Nat.lt_succ_iff_lt_or_eq.1 hc with hlt | rfl
    · have hne : c % N.slots ≠ s.pushes % N.slots := fun heq => by
        have := index_inj hlt.le (by omega) heq
        omega
      rw [Function.update_of_ne hne]
      exact h.filled c hlt (by omega)
    · rw [Function.update_self]

/-- The message in a slot at which a worker stands was pushed. -/
theorem read (h : Served N s) {H₀ : ℕ} (hlt : H₀ < s.pushes) :
    (s.q.buffer (H₀ % N.slots)).1 < s.pushes ∧
      H₀ % N.slots = (s.q.buffer (H₀ % N.slots)).1 % N.slots := by
  obtain ⟨b, hb, hlap, hslot⟩ := exists_last_lap N.slots_pos hlt
  have hfill := h.filled b hb hlap
  rw [hslot] at hfill
  rw [hfill]
  exact ⟨hb, hslot.symm⟩

/-- The message at the head of a queue that is not empty. -/
theorem head_message (h : Served N s) (hne : s.q.head ≠ s.q.tail) :
    (s.q.buffer s.q.head).1 = s.popped.length := by
  have hlt : s.popped.length < s.pushes :=
    lt_of_le_of_ne h.ring.le fun heq => hne (h.ring.empty_iff.2 heq)
  rw [h.ring.head]
  exact h.filled _ hlt h.ring.room.le

/-- Behind a message that waits stand only later ones. -/
theorem lt_of_mem_window (h : Served N s) {m c : ℕ} (hge : s.popped.length ≤ m)
    (hlt : m < s.pushes)
    (hc : c ∈ (window N.slots s.q.buffer ((m + 1) % N.slots)
      (span N.slots ((m + 1) % N.slots) s.q.tail)).map Prod.fst) : m < c := by
  have hroom := h.ring.room
  rw [h.ring.tail, span_mod (by omega) (by omega), window_mod_head, window, List.map_map] at hc
  obtain ⟨i, hi, rfl⟩ := List.mem_map.1 hc
  have := List.mem_range.1 hi
  have hnum := h.filled (m + 1 + i) (by omega) (by omega)
  simp only [Function.comp_apply, hnum]
  omega

end Served

section Step

variable [DecidableEq κ] {N : Capacity} {s s' : Sys κ α}

/-- A worker that moves on without storing the head keeps the invariant. -/
theorem Served.move (h : Served N s) {k : κ} {pc : PopPc (ℕ × α)}
    (hpc : WorkerAt N.slots s.pushes s.popped.length pc) :
    Served N { s with pop := Function.update s.pop k pc } :=
  { h with
    worker := (Function.forall_update_iff s.pop fun _ pc =>
      WorkerAt N.slots s.pushes s.popped.length pc).2 ⟨hpc, fun j _ => h.worker j⟩ }

/-- A worker that stores the head past the oldest message keeps the invariant. -/
theorem Served.store (h : Served N s) {k : κ} {hd : ℕ} {out : ℕ × α}
    (hhead : s.q.head = hd) (hlt : s.popped.length < s.pushes)
    (hout : out.1 = s.popped.length) :
    Served N { s with
      q := { s.q with head := (hd + 1) &&& s.q.mask }
      pop := Function.update s.pop k .loadHead
      popped := s.popped ++ [out] } := by
  have hlen : (s.popped ++ [out]).length = s.popped.length + 1 := by simp
  subst hhead
  refine ⟨?_, ?_, h.filled, ?_⟩
  · rw [hlen]
    refine ⟨h.ring.mask, h.ring.tail, ?_, hlt, h.ring.room.trans (by omega)⟩
    change (s.q.head + 1) &&& s.q.mask = (s.popped.length + 1) % N.slots
    rw [h.ring.head, h.ring.mask, N.next_index]
  · change (s.popped ++ [out]).map Prod.fst = List.range (s.popped ++ [out]).length
    rw [hlen, List.map_append, h.order, List.range_succ, ← hout]
    rfl
  · refine (Function.forall_update_iff s.pop fun _ pc =>
      WorkerAt N.slots s.pushes (s.popped ++ [out]).length pc).2 ⟨trivial, fun j _ => ?_⟩
    exact (h.worker j).mono le_rfl (by rw [hlen]; exact Nat.le_succ _)

/-- **The invariant is kept** by every step that stores the head only where the worker has found
it. -/
theorem step_served {a : Act κ α} (h : Served N s) (hg : StoresOwnHead s a)
    (hstep : step s a = some s') : Served N s' := by
  cases a with
  | push msg =>
      simp only [step] at hstep
      split at hstep
      case isTrue => exact Option.some.inj hstep ▸ h
      case isFalse hfree => exact Option.some.inj hstep ▸ h.push hfree msg
  | pop k =>
      have hw := h.worker k
      simp only [step, mpscPopStep, Option.some.injEq] at hstep
      have hr := popSteps_ringPopStep s.q (s.pop k)
      generalize ringPopStep s.q (s.pop k) = r at hr hstep
      subst hstep
      simp only [StoresOwnHead] at hg
      generalize s.pop k = pc at hr hw hg
      cases hr with
      | loadHead =>
          have hat : WorkerAt N.slots s.pushes s.popped.length
              (.loadTail s.q.head : PopPc (ℕ × α)) :=
            ⟨s.popped.length, le_rfl, h.ring.head⟩
          simpa [returned] using h.move (k := k) hat
      | empty he =>
          have hat : WorkerAt N.slots s.pushes s.popped.length
              (.loadHead : PopPc (ℕ × α)) := trivial
          simpa [returned] using h.move (k := k) hat
      | @nonempty hd hne =>
          obtain ⟨H₀, hle, rfl⟩ := hw
          have hlt : H₀ < s.pushes := by
            refine lt_of_le_of_ne (hle.trans h.ring.le) fun heq => hne ?_
            rw [heq, h.ring.tail]
          have hat : WorkerAt N.slots s.pushes s.popped.length
              (.read (H₀ % N.slots) : PopPc (ℕ × α)) :=
            ⟨H₀, hlt, rfl⟩
          simpa [returned] using h.move (k := k) hat
      | read hd =>
          obtain ⟨H₀, hlt, rfl⟩ := hw
          have hat : WorkerAt N.slots s.pushes s.popped.length
              (.store (H₀ % N.slots) (s.q.buffer (H₀ % N.slots))) := h.read hlt
          simpa [returned] using h.move (k := k) hat
      | store hd out =>
          obtain ⟨hhead, hne, hsame⟩ := hg
          rw [← hhead] at hne hsame
          have hout := h.head_message hne
          rw [hsame] at hout
          exact h.store hhead (hout ▸ hw.1) hout

/-- A store after which every message is still delivered exactly once is made by a worker that
holds the oldest message: an older one was returned before, and with a later one the head passes the
oldest. -/
theorem Served.storesOwnHead (h : Served N s) {a : Act κ α}
    (honce : ∀ s', step s a = some s' → ExactlyOnce N s') : StoresOwnHead s a := by
  cases a with
  | push msg => trivial
  | pop k =>
      have hw := h.worker k
      simp only [step, mpscPopStep, Option.some.injEq, forall_eq'] at honce
      simp only [StoresOwnHead]
      split
      case h_2 => trivial
      case h_1 hd out hpc =>
        rw [hpc] at hw honce
        obtain ⟨hlt, rfl⟩ := hw
        obtain ⟨hnodup, hkept⟩ := honce
        simp only [ringPopStep, returned, waiting, List.map_append, h.order, List.map_cons,
          List.map_nil, h.ring.mask, N.next_index] at hnodup hkept
        have hge : s.popped.length ≤ out.1 := by
          by_contra hold
          exact (List.nodup_append.1 hnodup).2.2 _ (List.mem_range.2 (Nat.not_le.1 hold)) _
            (List.mem_singleton_self _) rfl
        have heq : s.popped.length = out.1 := by
          by_contra hne
          rcases hkept s.popped.length (by omega) with hmem | hmem
          · simp [hne] at hmem
          · have := h.lt_of_mem_window hge hlt hmem
            omega
        have hne : s.q.head ≠ s.q.tail := fun he => by
          have := h.ring.empty_iff.1 he
          omega
        have hhead : s.q.head = out.1 % N.slots := by rw [h.ring.head, heq]
        rw [← hhead]
        exact ⟨rfl, hne, (h.head_message hne).trans heq⟩

/-- **A run delivers every message exactly once exactly when no worker stores a head that was moved
under it.** -/
theorem exactly_once_iff (N : Capacity) (memory : ℕ → ℕ × α) (as : List (Act κ α)) :
    Throughout step (ExactlyOnce N) (init N memory) as ↔
      Along step StoresOwnHead (init N memory) as :=
  throughout_iff_of_invariant (fun _ _ _ h hg hstep => step_served h hg hstep)
    (fun _ h => h.exactlyOnce) (fun _ _ h honce => h.storesOwnHead honce) (init_served N memory)

end Step

/-- One message is pushed; both workers load the head, find the queue not empty and read the slot,
and then both store the head. -/
def sharedPop : List (Act Bool Char) :=
  [.push 'm', .pop false, .pop false, .pop false, .pop true, .pop true, .pop true,
    .pop false, .pop true]

/-- **Two workers take the same message.** -/
theorem two_workers_take_one_message :
    ∃ s : Sys Bool Char, run step (init ⟨1, le_rfl⟩ fun _ => (0, ' ')) sharedPop = some s ∧
      s.popped = [(0, 'm'), (0, 'm')] ∧ ¬ ExactlyOnce ⟨1, le_rfl⟩ s :=
  ⟨_, rfl, rfl, fun h => absurd h.1 (by decide)⟩

end RiskWorkers
