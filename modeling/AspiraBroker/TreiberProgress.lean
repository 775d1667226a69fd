/-
**The lock-free stack makes progress.**

A thread of `TreiberStack` may have to start over: its swap fails if another thread has changed the
head since it was loaded.  No bound on the steps of one call exists, but there is one for all calls
together.  Each thread that goes by a head which is no longer the head is going to fail once; a swap
that fails makes its thread forget that head, and only a swap that succeeds can turn the heads that
the other threads go by into old ones.  So among `n` threads every success causes at most `n - 1`
failures.  An attempt takes three steps, and so the threads together take at most `3 * n` steps for
each call, and one more for each link inside of a batch: in every run, whoever is scheduled.

Main definitions:

* `TreiberStack.Pc.after` — where the next step of a call leads;
* `TreiberStack.fails`, `TreiberStack.completes` — the outcome of a swap;
* `TreiberStack.stale`, `TreiberStack.stepsLeft`, `TreiberStack.inCall` — the threads that are going
  to fail, the steps up to the next swaps, the calls in progress;
* `TreiberStack.work` — the potential that is made of the three.

Main results:

* `TreiberStack.exists_go` — a thread inside of a call can take its next step;
* `TreiberStack.fails_add_stale` — **every success causes at most `n - 1` failures**;
* `TreiberStack.steps_add_work` — **a step uses up work, and a call among `n` threads brings
  `3 * n`**.
-/

import AspiraBroker.AmortisedRuns
import AspiraBroker.TreiberStack
import Mathlib.Tactic.Ring

set_option relaxedAutoImplicit false
set_option autoImplicit false

namespace TreiberStack

open Transition

universe u v w

/-! ### The course of one call -/

section Course

variable {α : Type u}

/-- The head that the swap compares with, if the next step is one. -/
def Pc.expects : Pc α → Option (Option α)
  | .popSwap h _ => some (some h)
  | .pushSwap _ h => some h
  | .idle | .popLoad | .popRead _ | .pushLink _ _ _ _ | .pushLoad _ | .pushWrite _ _ => none

/-- The head that the thread goes by, if it has loaded one. -/
def Pc.seen : Pc α → Option (Option α)
  | .popRead h | .popSwap h _ => some (some h)
  | .pushWrite _ h | .pushSwap _ h => some h
  | .idle | .popLoad | .pushLink _ _ _ _ | .pushLoad _ => none

/-- The steps up to the outcome of the next swap. -/
def Pc.stepsLeft : Pc α → ℕ
  | .idle => 0
  | .popSwap _ _ | .pushSwap _ _ => 1
  | .popRead _ | .pushWrite _ _ => 2
  | .popLoad | .pushLoad _ => 3
  | .pushLink _ _ _ rest => rest.length + 4

/-- The thread is in a call. -/
def Pc.inCall : Pc α → ℕ
  | .idle => 0
  | .popLoad | .popRead _ | .popSwap _ _ | .pushLink _ _ _ _ | .pushLoad _ | .pushWrite _ _
  | .pushSwap _ _ => 1

theorem linkFrom_stepsLeft (b : Batch α) (a : α) (rest : List α) :
    (linkFrom b (a :: rest)).stepsLeft = rest.length + 3 := by
  cases rest <;> rfl

theorem linkFrom_seen (b : Batch α) (l : List α) : (linkFrom b l).seen = none := by
  unfold linkFrom
  split <;> rfl

theorem linkFrom_inCall (b : Batch α) (l : List α) : (linkFrom b l).inCall = 1 := by
  unfold linkFrom
  split <;> rfl

variable [DecidableEq α]

/-- Where the next step of the call leads. -/
def Pc.after (reload : Bool) (head : Option α) (next : α → Option α) : Pc α → Pc α
  | .idle => .idle
  | .popLoad =>
      match head with
      | none => .idle
      | some h => .popRead h
  | .popRead h => .popSwap h (next h)
  | .popSwap h _ => if head = some h then .idle else .popLoad
  | .pushLink b _ c rest => linkFrom b (c :: rest)
  | .pushLoad b => .pushWrite b head
  | .pushWrite b h => .pushSwap b h
  | .pushSwap b h =>
      if head = h then .idle else if reload then .pushLoad b else .pushWrite b head

/-- The swap fails. -/
def Pc.fails (head : Option α) (pc : Pc α) : ℕ :=
  if pc.expects = none ∨ pc.expects = some head then 0 else 1

/-- The swap succeeds. -/
def Pc.completes (head : Option α) (pc : Pc α) : ℕ := if pc.expects = some head then 1 else 0

/-- The thread goes by a head that is not the head. -/
def Pc.stale (head : Option α) (pc : Pc α) : ℕ :=
  if pc.seen = none ∨ pc.seen = some head then 0 else 1

variable {reload : Bool} {head : Option α} {next : α → Option α} {pc : Pc α}

theorem Pc.stale_le_one : pc.stale head ≤ 1 := by
  unfold Pc.stale
  split <;> decide

/-- A step that is no swap costs one of the steps that are left; a swap that fails gives up to three
more. -/
theorem Pc.stepsLeft_after (reload : Bool) (head : Option α) (next : α → Option α)
    (hpc : pc ≠ .idle) :
    1 + (pc.after reload head next).stepsLeft ≤ pc.stepsLeft + 3 * pc.fails head := by
  cases pc with
  | idle => exact absurd rfl hpc
  | popLoad =>
      cases head <;> simp [Pc.after, Pc.stepsLeft, Pc.fails, Pc.expects]
  | popRead h => simp [Pc.after, Pc.stepsLeft]
  | popSwap h n =>
      by_cases hhead : head = some h
      · simp [Pc.after, Pc.stepsLeft, hhead]
      · simp [Pc.after, Pc.stepsLeft, Pc.fails, Pc.expects, hhead, Ne.symm hhead]
  | pushLink b a c rest =>
      change 1 + (linkFrom b (c :: rest)).stepsLeft ≤ _
      rw [linkFrom_stepsLeft]
      simp only [Pc.stepsLeft]
      omega
  | pushLoad b => simp [Pc.after, Pc.stepsLeft]
  | pushWrite b h => simp [Pc.after, Pc.stepsLeft]
  | pushSwap b h =>
      by_cases hhead : head = h
      · simp [Pc.after, Pc.stepsLeft, hhead]
      · cases reload <;>
          simp [Pc.after, Pc.stepsLeft, Pc.fails, Pc.expects, hhead, Ne.symm hhead]

/-- A swap that succeeds ends the call. -/
theorem Pc.inCall_after (reload : Bool) (head : Option α) (next : α → Option α) (pc : Pc α) :
    pc.completes head + (pc.after reload head next).inCall ≤ pc.inCall := by
  cases pc with
  | idle => simp [Pc.after, Pc.inCall, Pc.completes, Pc.expects]
  | popLoad => cases head <;> simp [Pc.after, Pc.inCall, Pc.completes, Pc.expects]
  | popRead h => simp [Pc.after, Pc.inCall, Pc.completes, Pc.expects]
  | popSwap h n =>
      by_cases hhead : head = some h
      · simp [Pc.after, Pc.inCall, Pc.completes, Pc.expects, hhead]
      · simp [Pc.after, Pc.inCall, Pc.completes, Pc.expects, hhead, Ne.symm hhead]
  | pushLink b a c rest =>
      change 0 + (linkFrom b (c :: rest)).inCall ≤ 1
      rw [linkFrom_inCall]
  | pushLoad b => simp [Pc.after, Pc.inCall, Pc.completes, Pc.expects]
  | pushWrite b h => simp [Pc.after, Pc.inCall, Pc.completes, Pc.expects]
  | pushSwap b h =>
      by_cases hhead : head = h
      · simp [Pc.after, Pc.inCall, Pc.completes, Pc.expects, hhead]
      · cases reload <;>
          simp [Pc.after, Pc.inCall, Pc.completes, Pc.expects, hhead, Ne.symm hhead]

/-- A swap that fails makes the thread forget the old head; no step but a swap lets the thread go by
an old one. -/
theorem Pc.stale_after (reload : Bool) (next : α → Option α) (hpc : pc.expects ≠ some head) :
    pc.fails head + (pc.after reload head next).stale head ≤ pc.stale head := by
  cases pc with
  | idle => simp [Pc.after, Pc.stale, Pc.fails, Pc.expects, Pc.seen]
  | popLoad => cases head <;> simp [Pc.after, Pc.stale, Pc.fails, Pc.expects, Pc.seen]
  | popRead h => simp [Pc.after, Pc.stale, Pc.fails, Pc.expects, Pc.seen]
  | popSwap h n =>
      have hhead : ¬ some h = head := fun heq => hpc (congrArg some heq)
      simp [Pc.after, Pc.stale, Pc.fails, Pc.expects, Pc.seen, hhead, Ne.symm hhead]
  | pushLink b a c rest =>
      change 0 + (linkFrom b (c :: rest)).stale head ≤ 0
      simp [Pc.stale, linkFrom_seen]
  | pushLoad b => simp [Pc.after, Pc.stale, Pc.fails, Pc.expects, Pc.seen]
  | pushWrite b h => simp [Pc.after, Pc.stale, Pc.fails, Pc.expects, Pc.seen]
  | pushSwap b h =>
      have hhead : ¬ h = head := fun heq => hpc (congrArg some heq)
      cases reload <;>
        simp [Pc.after, Pc.stale, Pc.fails, Pc.expects, Pc.seen, hhead, Ne.symm hhead]

theorem Pc.after_eq_idle (hpc : pc.expects = some head) : pc.after reload head next = .idle := by
  cases pc with
  | popSwap h n =>
      obtain rfl : some h = head := by simpa [Pc.expects] using hpc
      simp [Pc.after]
  | pushSwap b h =>
      obtain rfl : h = head := by simpa [Pc.expects] using hpc
      simp [Pc.after]
  | idle | popLoad | popRead | pushLink | pushLoad | pushWrite => cases hpc

end Course

/-! ### One step of all threads -/

section Step

variable {κ : Type v} {α : Type u} [DecidableEq κ] {s s' : Sys κ α}

/-- One thread moves: a sum over the threads changes by what its summand changes. -/
theorem sum_update_pc [Fintype κ] {k : κ} {pc : Pc α} (f : Pc α → ℕ)
    (h : s'.pc = Function.update s.pc k pc) :
    ∑ j, f (s'.pc j) + f (s.pc k) = ∑ j, f (s.pc j) + f pc := by
  have hsum := sum_add_eq_of_others (f := fun j => f (s.pc j)) (g := fun j => f (s'.pc j)) (k := k)
    fun j hj => by rw [h, Function.update_of_ne hj]
  simpa [h] using hsum

variable [DecidableEq α] {reload : Bool}

/-- The thread that acts. -/
def Act.thread : Act κ α → κ
  | .alloc k | .free k _ | .write k _ _ | .go k => k

/-- The step is a swap that fails. -/
def fails (s : Sys κ α) : Act κ α → ℕ
  | .go k => (s.pc k).fails s.head
  | .alloc _ | .free _ _ | .write _ _ _ => 0

/-- The step is a swap that succeeds. -/
def completes (s : Sys κ α) : Act κ α → ℕ
  | .go k => (s.pc k).completes s.head
  | .alloc _ | .free _ _ | .write _ _ _ => 0

/-- The step is one of a call. -/
def Act.steps : Act κ α → ℕ
  | .go _ => 1
  | .alloc _ | .free _ _ | .write _ _ _ => 0

/-- A call begins. -/
def Act.calls : Act κ α → ℕ
  | .alloc _ | .free _ _ => 1
  | .go _ | .write _ _ _ => 0

/-- The links inside of the batch of a call that begins. -/
def Act.links : Act κ α → ℕ
  | .free _ b => b.rest.length
  | .alloc _ | .go _ | .write _ _ _ => 0

/-- The next step of a call moves its thread on; only a swap that succeeds changes the head. -/
theorem pc_of_go {k : κ} (h : s.go reload k = some s') :
    s.pc k ≠ .idle ∧ s'.pc = Function.update s.pc k ((s.pc k).after reload s.head s.next) ∧
      ((s.pc k).expects ≠ some s.head → s'.head = s.head) := by
  unfold Sys.go at h
  cases hpc : s.pc k with
  | idle =>
      rw [hpc] at h
      cases h
  | popLoad =>
      rw [hpc] at h
      cases hhead : s.head with
      | none =>
          simp only [hhead, Option.some.injEq] at h
          subst h
          exact ⟨by simp, rfl, fun _ => hhead⟩
      | some h₀ =>
          simp only [hhead, Option.some.injEq] at h
          subst h
          exact ⟨by simp, rfl, fun _ => hhead⟩
  | popRead h₀ | pushLink b a c rest | pushLoad b | pushWrite b w =>
      rw [hpc] at h
      obtain rfl := Option.some.inj h
      exact ⟨by simp, rfl, fun _ => rfl⟩
  | popSwap h₀ n =>
      simp only [hpc] at h
      split at h
      · next hhead =>
          obtain rfl := Option.some.inj h
          refine ⟨by simp, ?_, fun hne => absurd (congrArg some hhead.symm) hne⟩
          simp [Pc.after, hhead, Sys.take, Sys.goto]
      · next hhead =>
          obtain rfl := Option.some.inj h
          refine ⟨by simp, ?_, fun _ => rfl⟩
          simp [Pc.after, hhead, Sys.goto]
  | pushSwap b w =>
      simp only [hpc] at h
      split at h
      · next hhead =>
          obtain rfl := Option.some.inj h
          refine ⟨by simp, ?_, fun hne => absurd (congrArg some hhead.symm) hne⟩
          simp [Pc.after, hhead, Sys.give, Sys.goto]
      · next hhead =>
          obtain rfl := Option.some.inj h
          refine ⟨by simp, ?_, fun _ => rfl⟩
          cases reload <;> simp [Pc.after, hhead, Sys.goto]

/-- What a step does to the threads: one of them calls or moves on, or none does. -/
inductive Turns (reload : Bool) (s : Sys κ α) : Act κ α → Sys κ α → Prop
  | call {act : Act κ α} {s' : Sys κ α} (k : κ) (pc : Pc α) (hidle : s.pc k = .idle)
      (hpc : s'.pc = Function.update s.pc k pc) (hhead : s'.head = s.head)
      (hsteps : act.steps = 0) (hseen : pc.seen = none) (hin : pc.inCall ≤ act.calls)
      (hleft : pc.stepsLeft ≤ 3 * act.calls + act.links)
      (hfails : fails s act = 0) (hcompletes : completes s act = 0) : Turns reload s act s'
  | write (k : κ) (a : α) (w : Option α) : Turns reload s (.write k a w) (s.link a w)
  | go {s' : Sys κ α} (k : κ) (hidle : s.pc k ≠ .idle)
      (hpc : s'.pc = Function.update s.pc k ((s.pc k).after reload s.head s.next))
      (hhead : (s.pc k).expects ≠ some s.head → s'.head = s.head) : Turns reload s (.go k) s'

theorem turns_of_step {act : Act κ α} (h : step reload s act = some s') :
    Turns reload s act s' := by
  cases act with
  | alloc k =>
      simp only [step, Option.ite_none_right_eq_some, Option.some.injEq] at h
      obtain ⟨hpc, rfl⟩ := h
      exact .call k .popLoad hpc rfl rfl rfl rfl le_rfl le_rfl rfl rfl
  | free k b =>
      simp only [step, Option.ite_none_right_eq_some, Option.some.injEq] at h
      obtain ⟨⟨hpc, -⟩, rfl⟩ := h
      refine .call k (linkFrom b b.nodes) hpc rfl rfl rfl (linkFrom_seen b _)
        (linkFrom_inCall b _).le ?_ rfl rfl
      rw [Batch.nodes, linkFrom_stepsLeft]
      simp only [Act.calls, Act.links]
      omega
  | write k a w =>
      simp only [step, Option.ite_none_right_eq_some, Option.some.injEq] at h
      obtain ⟨-, rfl⟩ := h
      exact .write k a w
  | go k =>
      obtain ⟨hidle, hpc, hhead⟩ := pc_of_go h
      exact .go k hidle hpc hhead

variable [Fintype κ]

/-- The threads that go by a head which is no longer the head. -/
def stale (s : Sys κ α) : ℕ := ∑ k, (s.pc k).stale s.head

/-- The steps up to the outcomes of the next swaps. -/
def stepsLeft (s : Sys κ α) : ℕ := ∑ k, (s.pc k).stepsLeft

/-- The threads in a call. -/
def inCall (s : Sys κ α) : ℕ := ∑ k, (s.pc k).inCall

theorem fails_add_stale {act : Act κ α} (h : step reload s act = some s') :
    fails s act + stale s' ≤ stale s + (Fintype.card κ - 1) * completes s act := by
  cases turns_of_step h with
  | call k pc hidle hpc hhead hsteps hseen hin hleft hfails hcompletes =>
      have hsum := sum_update_pc (Pc.stale s.head) hpc
      have hnew : pc.stale s.head = 0 := by simp [Pc.stale, hseen]
      have hold : (s.pc k).stale s.head = 0 := by simp [hidle, Pc.stale, Pc.seen]
      rw [hfails, hcompletes, stale, stale, hhead]
      omega
  | write k a w => simp [fails, completes, stale, Sys.link]
  | go k hidle hpc hhead =>
      by_cases hswap : (s.pc k).expects = some s.head
      · -- the swap succeeds: every other thread may go by an old head now
        have hk : (s'.pc k).stale s'.head = 0 := by
          rw [hpc, Function.update_self, Pc.after_eq_idle hswap]
          simp [Pc.stale, Pc.seen]
        have hothers : stale s' ≤ Fintype.card κ - 1 :=
          sum_le_card_sub_one hk fun j => Pc.stale_le_one
        simp only [fails, completes, Pc.fails, Pc.completes, hswap, or_true, if_true]
        omega
      · have hsum := sum_update_pc (Pc.stale s.head) hpc
        have hafter := Pc.stale_after reload s.next hswap
        simp only [fails, completes, Pc.completes, if_neg hswap, stale, hhead hswap]
        omega

theorem steps_add_stepsLeft {act : Act κ α} (h : step reload s act = some s') :
    act.steps + stepsLeft s' ≤ stepsLeft s + (3 * act.calls + act.links + 3 * fails s act) := by
  cases turns_of_step h with
  | call k pc hidle hpc hhead hsteps hseen hin hleft hfails hcompletes =>
      have hsum := sum_update_pc Pc.stepsLeft hpc
      rw [hsteps, stepsLeft, stepsLeft]
      omega
  | write k a w => simp [Act.steps, Act.calls, Act.links, stepsLeft, Sys.link]
  | go k hidle hpc hhead =>
      have hsum := sum_update_pc Pc.stepsLeft hpc
      have hafter := Pc.stepsLeft_after reload s.head s.next hidle
      simp only [Act.steps, Act.calls, Act.links, fails, stepsLeft]
      omega

theorem completes_add_inCall {act : Act κ α} (h : step reload s act = some s') :
    completes s act + inCall s' ≤ inCall s + act.calls := by
  cases turns_of_step h with
  | call k pc hidle hpc hhead hsteps hseen hin hleft hfails hcompletes =>
      have hsum := sum_update_pc Pc.inCall hpc
      rw [hcompletes, inCall, inCall]
      omega
  | write k a w => simp [completes, Act.calls, inCall, Sys.link]
  | go k hidle hpc hhead =>
      have hsum := sum_update_pc Pc.inCall hpc
      have hafter := Pc.inCall_after reload s.head s.next (s.pc k)
      simp only [completes, Act.calls, inCall]
      omega

omit [Fintype κ] in
/-- **A thread inside of a call can take its next step**, whatever the other threads have done. -/
theorem exists_go (reload : Bool) {k : κ} (hpc : s.pc k ≠ .idle) :
    ∃ s', s.go reload k = some s' := by
  unfold Sys.go
  cases hat : s.pc k with
  | idle => exact absurd hat hpc
  | popLoad => cases s.head <;> exact ⟨_, rfl⟩
  | popRead | pushLink | pushLoad | pushWrite => exact ⟨_, rfl⟩
  | popSwap | pushSwap =>
      dsimp only
      split <;> exact ⟨_, rfl⟩

/-- The steps that are still to come from the calls in progress, if no other call begins. -/
def work (s : Sys κ α) : ℕ :=
  stepsLeft s + 3 * stale s + 3 * ((Fintype.card κ - 1) * inCall s)

omit [DecidableEq κ] in
theorem work_eq_zero (h : ∀ k, s.pc k = .idle) : work s = 0 := by
  simp [work, stepsLeft, stale, inCall, h, Pc.stepsLeft, Pc.stale, Pc.seen, Pc.inCall]

/-- **A step uses up work; a call among `n` threads brings `3 * n`**, and one for each link inside
of its batch. -/
theorem steps_add_work {act : Act κ α} (h : step reload s act = some s') :
    act.steps + work s' ≤ work s + (3 * Fintype.card κ * act.calls + act.links) := by
  have hsteps := steps_add_stepsLeft h
  have hfails := fails_add_stale h
  have hcompletes := Nat.mul_le_mul_left (Fintype.card κ - 1) (completes_add_inCall h)
  have hpos : 0 < Fintype.card κ := Fintype.card_pos_iff.2 ⟨act.thread⟩
  obtain ⟨n, hn⟩ : ∃ n, Fintype.card κ = n + 1 := Nat.exists_eq_succ_of_ne_zero hpos.ne'
  have hcalls : 3 * Fintype.card κ * act.calls = 3 * act.calls + 3 * (n * act.calls) := by
    rw [hn]
    ring
  rw [hn, Nat.add_sub_cancel] at hfails hcompletes
  rw [Nat.mul_add, Nat.mul_add] at hcompletes
  rw [hcalls, work, work, hn, Nat.add_sub_cancel]
  omega

end Step

end TreiberStack
