/-
**Market data and its shutdown.**

Every matching engine has a tick queue of its own, and `main` hands the market-data thread the first
of them only: a tick of another shard is never popped.  And the thread leaves its loop as soon as it
loads a cleared `running`, without another look at its queue, so that ticks pushed before the
matchers were joined may stay in it.  What survives is an exact account: `tick_count` is the number
of ticks pushed precisely when neither happens and the count does not wrap around.

The matching engine itself is not part of the repository.  A matcher here calls `BT_SPSC_PUSH` on
its own queue whenever it likes until `bt_matching_stop` has joined it.

Main definitions:

* `MarketData.Ctx`, `MarketData.Sys`, `MarketData.Act`, `MarketData.step` — the matchers, the
  market-data thread and the shutdown of `main`, interleaved;
* `MarketData.Sys.ticks` — the successful pushes over all queues;
* `MarketData.Delivered` — the condition on a step under which no tick goes missing;
* `MarketData.Accounted` — the invariant.

Main results:

* `MarketData.step_accounted` — the invariant is kept;
* `MarketData.missed_step` — a step misses a tick exactly when it breaks the condition;
* `MarketData.tick_count_right_iff` — **`tick_count` is right after `bt_md_stop` exactly when every
  step met the condition**;
* `MarketData.ticks_go_missing` — a tick left in the queue, and a tick of the second shard.
-/

import AspiraBroker.SpscQueue
import Mathlib.Algebra.BigOperators.Group.Finset.Basic
import Mathlib.Algebra.Order.BigOperators.Group.Finset

set_option relaxedAutoImplicit false
set_option autoImplicit false

namespace MarketData

open LockfreeQueue Ring Transition

universe u

variable {α : Type u}

/-! ### The machine -/

/-- `BT_CFG_MATCH_QUEUE_CAP`, the `65536` slots of a tick queue. -/
def matchQueueCap : Capacity := .ofSucc 15

/-- `bt_md_ctx_t`: the queue the thread reads, as an index into `g_md_q`, the stop flag and the
number of ticks received. -/
structure Ctx where
  inQueue : ℕ
  running : Bool
  tickCount : UInt64

/-- `bt_md_create`. -/
def btMdCreate (inQueue : ℕ) : Ctx where
  inQueue := inQueue
  running := true
  tickCount := 0

/-- Where `md_thread` stands: before the load of `running`, inside `BT_SPSC_POP`, before the
increment of `tick_count`, past its loop. -/
inductive MdPc
  | test
  | pop
  | count
  | returned
  deriving DecidableEq

/-- Where `main` stands: `bt_matching_stop` has returned for the first `k` matchers, `bt_md_stop`
has cleared `running` and waits for the thread, `bt_md_stop` has returned. -/
inductive MainPc
  | matchers (k : ℕ)
  | joining
  | returned
  deriving DecidableEq

/-- The queues `g_md_q`, of which the first `shards` belong to a matcher, the market-data thread and
`main`. -/
structure Sys (α : Type u) where
  shards : ℕ
  queue : ℕ → Spsc.Sys Unit α
  ctx : Ctx
  md : MdPc
  main : MainPc

/-- Matcher `i` calls push on its queue or takes a step of it, the market-data thread takes a step,
`bt_matching_stop` returns for the next matcher, `bt_md_stop` clears the flag, `bt_md_stop`
returns. -/
inductive Act (α : Type u)
  | call (i : ℕ) (tick : α)
  | push (i : ℕ)
  | md
  | matchingStop
  | mdStop
  | mdJoin

/-- `main` has initialised the queues and started the threads; the market-data thread reads
`g_md_q[0]`. -/
def start (shards : ℕ) (memory : ℕ → ℕ → α) : Sys α where
  shards := shards
  queue := fun i => Spsc.init matchQueueCap (memory i)
  ctx := btMdCreate 0
  md := .test
  main := .matchers 0

/-- Matcher `i` exists and has not been joined. -/
def Sys.matching (s : Sys α) (i : ℕ) : Bool :=
  match s.main with
  | .matchers k => decide (k ≤ i ∧ i < s.shards)
  | .joining => false
  | .returned => false

/-- The queue the market-data thread reads. -/
def Sys.input (s : Sys α) : Spsc.Sys Unit α := s.queue s.ctx.inQueue

/-- A step of matcher `i` on its queue. -/
def matcherStep (s : Sys α) (i : ℕ) (b : Spsc.Act Unit α) : Option (Sys α) :=
  if s.matching i then
    (Spsc.step (s.queue i) b).map fun q => { s with queue := Function.update s.queue i q }
  else none

/-- Where `md_thread` goes on after a step of its pop. -/
def afterPop : Outcome α → MdPc
  | .pending => .pop
  | .fail => .test
  | .done _ => .count

/-- One step of `md_thread`. -/
def mdThread (s : Sys α) : Option (Sys α) :=
  match s.md with
  | .test => some { s with md := if s.ctx.running then .pop else .returned }
  | .pop =>
      let r := spscPopStep s.input.q s.input.pop
      some { s with
        queue := Function.update s.queue s.ctx.inQueue
          { s.input with q := r.1, pop := r.2.1, popped := s.input.popped ++ returned r.2.2 }
        md := afterPop r.2.2 }
  | .count => some { s with ctx := { s.ctx with tickCount := s.ctx.tickCount + 1 }, md := .test }
  | .returned => none

/-- One step of the machine. -/
def step (s : Sys α) : Act α → Option (Sys α)
  | .call i tick => matcherStep s i (.call () tick)
  | .push i => matcherStep s i (.push ())
  | .md => mdThread s
  | .matchingStop =>
      match s.main with
      | .matchers k =>
          -- the join waits until the matcher is outside its push
          if k < s.shards ∧ Spsc.calling ((s.queue k).push ()) = false then
            some { s with main := .matchers (k + 1) }
          else none
      | _ => none
  | .mdStop =>
      if s.main = .matchers s.shards then
        some { s with ctx := { s.ctx with running := false }, main := .joining }
      else none
  | .mdJoin =>
      if s.main = .joining ∧ s.md = .returned then some { s with main := .returned } else none

/-- The successful pushes over all shards' queues. -/
def Sys.ticks (s : Sys α) : ℕ := ∑ i ∈ Finset.range s.shards, (s.queue i).pushed.length

/-- Everything a step can do. -/
inductive Steps (s : Sys α) : Act α → Sys α → Prop
  | call {i : ℕ} {tick : α} {q : Spsc.Sys Unit α} : s.matching i = true →
      Spsc.step (s.queue i) (.call () tick) = some q →
      Steps s (.call i tick) { s with queue := Function.update s.queue i q }
  | push {i : ℕ} {q : Spsc.Sys Unit α} : s.matching i = true →
      Spsc.step (s.queue i) (.push ()) = some q →
      Steps s (.push i) { s with queue := Function.update s.queue i q }
  | goOn : s.md = .test → s.ctx.running = true → Steps s .md { s with md := .pop }
  | leave : s.md = .test → s.ctx.running = false → Steps s .md { s with md := .returned }
  | popWait {q : Spsc.Sys Unit α} {pc : MdPc} : s.md = .pop → Spsc.step s.input .pop = some q →
      q.popped = s.input.popped → pc = .pop ∨ pc = .test →
      Steps s .md { s with queue := Function.update s.queue s.ctx.inQueue q, md := pc }
  | popTick {q : Spsc.Sys Unit α} {tick : α} : s.md = .pop → Spsc.step s.input .pop = some q →
      q.popped = s.input.popped ++ [tick] →
      Steps s .md { s with queue := Function.update s.queue s.ctx.inQueue q, md := .count }
  | count : s.md = .count →
      Steps s .md { s with ctx := { s.ctx with tickCount := s.ctx.tickCount + 1 }, md := .test }
  | matchingStop {k : ℕ} : s.main = .matchers k → Spsc.calling ((s.queue k).push ()) = false →
      Steps s .matchingStop { s with main := .matchers (k + 1) }
  | mdStop : s.main = .matchers s.shards →
      Steps s .mdStop { s with ctx := { s.ctx with running := false }, main := .joining }
  | mdJoin : s.main = .joining → s.md = .returned → Steps s .mdJoin { s with main := .returned }

/-- **Every step is one of the listed ones.** -/
theorem steps_of_step {s s' : Sys α} {a : Act α} (h : step s a = some s') : Steps s a s' := by
  cases a with
  | call i tick =>
      simp only [step, matcherStep, Option.ite_none_right_eq_some, Option.map_eq_some_iff] at h
      obtain ⟨hm, q, hq, rfl⟩ := h
      exact .call hm hq
  | push i =>
      simp only [step, matcherStep, Option.ite_none_right_eq_some, Option.map_eq_some_iff] at h
      obtain ⟨hm, q, hq, rfl⟩ := h
      exact .push hm hq
  | md =>
      cases hmd : s.md with
      | test =>
          cases hrun : s.ctx.running with
          | true =>
              simp only [step, mdThread, hmd, hrun, if_true, Option.some.injEq] at h
              subst h
              exact .goOn hmd hrun
          | false =>
              simp only [step, mdThread, hmd, hrun, Bool.false_eq_true, if_false,
                Option.some.injEq] at h
              subst h
              exact .leave hmd hrun
      | pop =>
          simp only [step, mdThread, hmd, Option.some.injEq] at h
          subst h
          cases hr : (spscPopStep s.input.q s.input.pop).2.2 with
          | pending => exact .popWait hmd (by rw [Spsc.step, hr]) (List.append_nil _) (Or.inl rfl)
          | fail => exact .popWait hmd (by rw [Spsc.step, hr]) (List.append_nil _) (Or.inr rfl)
          | done tick => exact .popTick hmd (by rw [Spsc.step, hr]) rfl
      | count =>
          simp only [step, mdThread, hmd, Option.some.injEq] at h
          subst h
          exact .count hmd
      | returned => simp [step, mdThread, hmd] at h
  | matchingStop =>
      cases hm : s.main with
      | matchers k =>
          simp only [step, hm, Option.ite_none_right_eq_some, Option.some.injEq] at h
          obtain ⟨⟨-, hidle⟩, rfl⟩ := h
          exact .matchingStop hm hidle
      | joining => simp [step, hm] at h
      | returned => simp [step, hm] at h
  | mdStop =>
      simp only [step, Option.ite_none_right_eq_some, Option.some.injEq] at h
      obtain ⟨hm, rfl⟩ := h
      exact .mdStop hm
  | mdJoin =>
      simp only [step, Option.ite_none_right_eq_some, Option.some.injEq] at h
      obtain ⟨⟨hm, hmd⟩, rfl⟩ := h
      exact .mdJoin hm hmd

/-! ### When no tick goes missing -/

/-- Only the matcher whose queue is read pushes a tick, the thread loads a cleared `running` only
with that queue empty, and `tick_count` is not incremented at its largest value. -/
def Delivered (s : Sys α) : Act α → Prop
  | .push i => Spsc.storing ((s.queue i).push ()) = true → i = s.ctx.inQueue
  | .md =>
      match s.md with
      | .test => s.ctx.running = false → s.input.q.head = s.input.q.tail
      | .count => s.ctx.tickCount.toNat + 1 < 2 ^ 64
      | _ => True
  | _ => True

instance (s : Sys α) (a : Act α) : Decidable (Delivered s a) :=
  match a with
  | .push i => inferInstanceAs (Decidable (_ → _))
  | .md => by
      unfold Delivered
      cases s.md <;> infer_instance
  | .call _ _ | .matchingStop | .mdStop | .mdJoin => isTrue trivial

/-! ### The invariant -/

/-- A tick that has been popped and not yet counted. -/
def MdPc.uncounted : MdPc → ℕ
  | .test => 0
  | .pop => 0
  | .count => 1
  | .returned => 0

/-- **The invariant**: the queues are in order, the thread has counted no tick it has not popped, a
queue without a matcher gets no tick, a matcher that has been joined is outside its push, and the
flag is cleared only after all of them have been joined. -/
structure Accounted (s : Sys α) : Prop where
  kept : ∀ i, Spsc.Kept matchQueueCap (s.queue i)
  count : s.ctx.tickCount.toNat + s.md.uncounted ≤ s.input.popped.length
  outside : ∀ i, s.shards ≤ i → (s.queue i).pushed = []
  quiet : ∀ i, s.matching i = false → Spsc.calling ((s.queue i).push ()) = false
  stopped : s.ctx.running = false → ∀ i, s.matching i = false
  left : s.md = .returned → s.ctx.running = false
  joined : s.main = .returned → s.md = .returned

theorem start_accounted (shards : ℕ) (memory : ℕ → ℕ → α) : Accounted (start shards memory) where
  kept := fun i => Spsc.init_kept _ _
  count := le_rfl
  outside := fun i hi => rfl
  quiet := fun i hi => rfl
  stopped := fun h => by cases h
  left := fun h => by cases h
  joined := fun h => by cases h

section Step

variable {s s' : Sys α}

theorem lt_shards_of_matching {i : ℕ} (h : s.matching i = true) : i < s.shards := by
  cases hm : s.main with
  | matchers k =>
      simp only [Sys.matching, hm, decide_eq_true_eq] at h
      exact h.2
  | joining => simp [Sys.matching, hm] at h
  | returned => simp [Sys.matching, hm] at h

/-- While a matcher has not been joined, the market-data thread is in its loop. -/
theorem Accounted.not_returned (h : Accounted s) {i : ℕ} (hm : s.matching i = true) :
    s.md ≠ .returned := by
  intro hmd
  rw [h.stopped (h.left hmd) i] at hm
  cases hm

/-- A step of one queue keeps them all in order. -/
theorem Accounted.kept_update (h : Accounted s) {i : ℕ} {b : Spsc.Act Unit α}
    {q : Spsc.Sys Unit α} (hq : Spsc.step (s.queue i) b = some q) (j : ℕ) :
    Spsc.Kept matchQueueCap (Function.update s.queue i q j) := by
  have hkept := Spsc.step_kept (h.kept i) (Spsc.exclusiveStore_of_subsingleton _ b) hq
  exact (Function.forall_update_iff s.queue fun _ q' => Spsc.Kept matchQueueCap q').2
    ⟨hkept, fun k _ => h.kept k⟩ j

/-- A matcher's step keeps the invariant. -/
theorem Accounted.matcher (h : Accounted s) {i : ℕ} {b : Spsc.Act Unit α} {q : Spsc.Sys Unit α}
    (hm : s.matching i = true) (hq : Spsc.step (s.queue i) b = some q)
    (hpop : q.popped = (s.queue i).popped) :
    Accounted { s with queue := Function.update s.queue i q } := by
  refine { h with kept := h.kept_update hq, count := ?_, outside := fun j hj => ?_,
                  quiet := fun j hj => ?_ }
  · rw [Sys.input, apply_update_eq Spsc.Sys.popped hpop]
    exact h.count
  · -- a queue without a matcher is not the one pushed to
    have hji : j ≠ i := by
      rintro rfl
      exact absurd (lt_shards_of_matching hm) (not_lt.2 hj)
    change (Function.update s.queue i q j).pushed = []
    rw [Function.update_of_ne hji]
    exact h.outside j hj
  · have hji : j ≠ i := by
      rintro rfl
      rw [show s.matching j = false from hj] at hm
      cases hm
    change Spsc.calling ((Function.update s.queue i q j).push ()) = false
    rw [Function.update_of_ne hji]
    exact h.quiet j hj

/-- A step of the pop keeps the invariant, if the thread counts what it has popped. -/
theorem Accounted.pop (h : Accounted s) {q : Spsc.Sys Unit α} {pc : MdPc} (hmd : s.md = .pop)
    (hq : Spsc.step s.input .pop = some q) (hpc : pc ≠ .returned)
    (hcount : s.ctx.tickCount.toNat + pc.uncounted ≤ q.popped.length) :
    Accounted { s with queue := Function.update s.queue s.ctx.inQueue q, md := pc } := by
  refine { h with kept := h.kept_update hq, count := ?_, outside := fun j hj => ?_,
                  quiet := fun j hj => ?_, left := fun hret => absurd hret hpc,
                  joined := fun hret => absurd (h.joined hret) (by simp [hmd]) }
  · simpa [Sys.input] using hcount
  · rw [apply_update_eq (f := s.queue) Spsc.Sys.pushed (Spsc.pushed_pop hq)]
    exact h.outside j hj
  · rw [apply_update_eq (f := s.queue) Spsc.Sys.push (Spsc.push_pop hq)]
    exact h.quiet j hj

/-- The increment keeps the invariant: the count may wrap around, but it does not get ahead of the
pops. -/
theorem Accounted.increment (h : Accounted s) (hmd : s.md = .count) :
    Accounted { s with ctx := { s.ctx with tickCount := s.ctx.tickCount + 1 }, md := .test } := by
  have hcount := h.count
  rw [hmd] at hcount
  refine { h with count := ?_, left := fun hret => (by cases hret),
                  joined := fun hret => absurd (h.joined hret) (by simp [hmd]) }
  refine le_trans ?_ hcount
  change (s.ctx.tickCount + 1).toNat ≤ s.ctx.tickCount.toNat + 1
  rw [UInt64.toNat_add, UInt64.toNat_one]
  exact Nat.mod_le _ _

/-- Joining a matcher that is outside its push keeps the invariant. -/
theorem Accounted.matchingStop (h : Accounted s) {k : ℕ} (hmain : s.main = .matchers k)
    (hidle : Spsc.calling ((s.queue k).push ()) = false) :
    Accounted { s with main := .matchers (k + 1) } := by
  refine { h with quiet := fun i hi => ?_, stopped := fun hrun i => ?_,
                  joined := fun hret => (by cases hret) }
  · -- the matcher just joined, or one that was not running before
    by_cases hik : i = k
    · rw [hik]
      exact hidle
    · refine h.quiet i ?_
      simp only [Sys.matching, hmain, decide_eq_false_iff_not] at hi ⊢
      omega
  · have := h.stopped hrun i
    simp only [Sys.matching, hmain, decide_eq_false_iff_not] at this ⊢
    omega

/-- **The invariant is kept** by every step. -/
theorem step_accounted {a : Act α} (h : Accounted s) (hstep : step s a = some s') :
    Accounted s' := by
  have hcount := h.count
  cases steps_of_step hstep with
  | call hm hq => exact h.matcher hm hq (Spsc.popped_call hq)
  | push hm hq => exact h.matcher hm hq (Spsc.popped_push hq)
  | goOn hmd hrun =>
      rw [hmd] at hcount
      exact { h with count := hcount, left := fun hret => (by cases hret),
                     joined := fun hret => absurd (h.joined hret) (by simp [hmd]) }
  | leave hmd hrun =>
      rw [hmd] at hcount
      exact { h with count := hcount, left := fun _ => hrun, joined := fun _ => rfl }
  | popWait hmd hq hpop hpc =>
      rw [hmd, ← hpop] at hcount
      rcases hpc with rfl | rfl
      · exact h.pop hmd hq (by decide) hcount
      · exact h.pop hmd hq (by decide) hcount
  | popTick hmd hq hpop =>
      rw [hmd] at hcount
      refine h.pop hmd hq (by decide) ?_
      rw [hpop, List.length_append]
      exact Nat.add_le_add hcount le_rfl
  | count hmd => exact h.increment hmd
  | matchingStop hmain hidle => exact h.matchingStop hmain hidle
  | mdStop hmain =>
      refine { h with quiet := fun i _ => ?_, stopped := fun _ i => rfl, left := fun _ => rfl,
                      joined := fun hret => (by cases hret) }
      refine h.quiet i ?_
      simp only [Sys.matching, hmain, decide_eq_false_iff_not]
      omega
  | mdJoin hmain hmd =>
      refine { h with quiet := fun i _ => h.quiet i ?_, stopped := fun _ i => rfl,
                      joined := fun _ => hmd }
      simp [Sys.matching, hmain]

/-! ### A step that misses a tick -/

/-- A tick is in a queue nobody reads, or the thread has left one behind, or has not counted one. -/
def Missed (s : Sys α) : Prop :=
  (∃ i, i ≠ s.ctx.inQueue ∧ (s.queue i).pushed ≠ []) ∨
    (s.md = .returned ∧ s.input.popped.length ≠ s.input.pushed.length) ∨
      s.ctx.tickCount.toNat + s.md.uncounted ≠ s.input.popped.length

/-- A step misses nothing new when it pushes nothing, and what it pops or counts it pops and counts
alike. -/
theorem missed_congr (hin : s'.ctx.inQueue = s.ctx.inQueue)
    (hpushed : ∀ i, (s'.queue i).pushed = (s.queue i).pushed)
    (hmd : s'.md = .returned ↔ s.md = .returned)
    (hret : s.md = .returned → s'.input.popped = s.input.popped)
    (hcount : s'.ctx.tickCount.toNat + s'.md.uncounted = s'.input.popped.length ↔
      s.ctx.tickCount.toNat + s.md.uncounted = s.input.popped.length) :
    Missed s' ↔ Missed s := by
  have hinput : s'.input.pushed = s.input.pushed := by rw [Sys.input, hin, hpushed, Sys.input]
  have hleft : (s'.md = .returned ∧ s'.input.popped.length ≠ s'.input.pushed.length) ↔
      (s.md = .returned ∧ s.input.popped.length ≠ s.input.pushed.length) := by
    rw [hmd, hinput]
    exact and_congr_right fun hr => by rw [hret hr]
  simp only [Missed, hin, hpushed, hleft, ne_eq, hcount]

/-- A step that is not a store of the tail pushes nothing. -/
theorem missed_matcher {i : ℕ} {q : Spsc.Sys Unit α}
    (hpushed : q.pushed = (s.queue i).pushed) (hpop : q.popped = (s.queue i).popped) :
    Missed { s with queue := Function.update s.queue i q } ↔ Missed s := by
  have hpopped : ∀ j, (Function.update s.queue i q j).popped = (s.queue j).popped :=
    apply_update_eq Spsc.Sys.popped hpop
  refine missed_congr rfl (apply_update_eq Spsc.Sys.pushed hpushed) Iff.rfl (fun _ => hpopped _) ?_
  change _ = (Function.update s.queue i q s.ctx.inQueue).popped.length ↔ _
  rw [hpopped]
  exact Iff.rfl

/-- A pushed tick is missed exactly when nobody reads its queue. -/
theorem missed_store (h : Accounted s) {i : ℕ} {q : Spsc.Sys Unit α} (hm : s.matching i = true)
    (hpushed : q.pushed ≠ []) (hpop : q.popped = (s.queue i).popped) :
    Missed { s with queue := Function.update s.queue i q } ↔
      Missed s ∨ i ≠ s.ctx.inQueue := by
  have hnot := h.not_returned hm
  have hpopped : (Function.update s.queue i q s.ctx.inQueue).popped = s.input.popped :=
    apply_update_eq Spsc.Sys.popped hpop s.ctx.inQueue
  have hunread : (∃ j, j ≠ s.ctx.inQueue ∧ (Function.update s.queue i q j).pushed ≠ []) ↔
      (∃ j, j ≠ s.ctx.inQueue ∧ (s.queue j).pushed ≠ []) ∨ i ≠ s.ctx.inQueue := by
    constructor
    · rintro ⟨j, hj, hne⟩
      by_cases hji : j = i
      · exact Or.inr (hji ▸ hj)
      · rw [Function.update_of_ne hji] at hne
        exact Or.inl ⟨j, hj, hne⟩
    · rintro (⟨j, hj, hne⟩ | hi)
      · refine ⟨j, hj, ?_⟩
        by_cases hji : j = i
        · rw [hji, Function.update_self]
          exact hpushed
        · rwa [Function.update_of_ne hji]
      · refine ⟨i, hi, ?_⟩
        rwa [Function.update_self]
  simp only [Missed, Sys.input, hunread, hnot, false_and, false_or]
  rw [hpopped, Sys.input]
  exact or_right_comm

/-- When the thread leaves its loop it misses what is still in its queue. -/
theorem missed_leave (h : Accounted s) (hmd : s.md = .test) :
    Missed { s with md := .returned } ↔ Missed s ∨ s.input.q.head ≠ s.input.q.tail := by
  have hempty : s.input.q.head ≠ s.input.q.tail ↔
      s.input.popped.length ≠ s.input.pushed.length :=
    not_congr (h.kept s.ctx.inQueue).ring.empty_iff
  simp only [Missed, Sys.input, hmd, MdPc.uncounted] at hempty ⊢
  rw [hempty]
  simp only [reduceCtorEq, false_and, true_and, false_or]
  rw [← or_assoc, or_right_comm]

/-- A step of the pop misses nothing, if what it has popped is what is left to count. -/
theorem missed_pop {q : Spsc.Sys Unit α} {pc : MdPc} (hmd : s.md = .pop)
    (hq : Spsc.step s.input .pop = some q) (hpc : pc ≠ .returned)
    (hcount : q.popped.length = s.input.popped.length + pc.uncounted) :
    Missed { s with queue := Function.update s.queue s.ctx.inQueue q, md := pc } ↔ Missed s := by
  refine missed_congr rfl (apply_update_eq Spsc.Sys.pushed (Spsc.pushed_pop hq)) ?_ ?_ ?_
  · simp [hmd, hpc]
  · simp [hmd]
  · simp only [Sys.input, Function.update_self, hmd] at hcount ⊢
    rw [hcount]
    exact Nat.add_right_cancel_iff

/-- An increment misses a tick when it wraps around. -/
theorem missed_count (h : Accounted s) (hmd : s.md = .count) :
    Missed { s with ctx := { s.ctx with tickCount := s.ctx.tickCount + 1 }, md := .test } ↔
      Missed s ∨ ¬ s.ctx.tickCount.toNat + 1 < 2 ^ 64 := by
  have hcount := h.count
  rw [hmd, MdPc.uncounted] at hcount
  have hwrap : (s.ctx.tickCount + 1).toNat ≠ s.input.popped.length ↔
      s.ctx.tickCount.toNat + 1 ≠ s.input.popped.length ∨
        ¬ s.ctx.tickCount.toNat + 1 < 2 ^ 64 := by
    rw [UInt64.toNat_add, UInt64.toNat_one]
    have := s.ctx.tickCount.toNat_lt
    omega
  simp only [Missed, Sys.input, hmd, MdPc.uncounted] at hwrap ⊢
  simp only [reduceCtorEq, false_and, false_or, add_zero, hwrap, or_assoc]

/-- **A step misses a tick exactly when it breaks the condition.** -/
theorem missed_step {a : Act α} (h : Accounted s) (hstep : step s a = some s') :
    Missed s' ↔ Missed s ∨ ¬ Delivered s a := by
  cases steps_of_step hstep with
  | @call i tick q hm hq =>
      exact loss_of_iff (missed_matcher (Spsc.pushed_call hq) (Spsc.popped_call hq)) trivial
  | @push i q hm hq =>
      rcases Spsc.pushed_push hq with ⟨hst, hpushed⟩ | ⟨hst, hpushed⟩
      · exact loss_of_iff (missed_matcher hpushed (Spsc.popped_push hq)) (by simp [Delivered, hst])
      · rw [missed_store h hm hpushed (Spsc.popped_push hq)]
        simp [Delivered, hst]
  | goOn hmd hrun =>
      refine loss_of_iff (missed_congr rfl (fun _ => rfl) ?_ (fun _ => rfl) ?_) ?_
      · simp [hmd]
      · rw [hmd]
        exact Iff.rfl
      · simp [Delivered, hmd, hrun]
  | leave hmd hrun =>
      rw [missed_leave h hmd]
      simp [Delivered, hmd, hrun]
  | @popWait q pc hmd hq hpop hpc =>
      have hd : Delivered s .md := by simp [Delivered, hmd]
      have hlen : q.popped.length = s.input.popped.length := by rw [hpop]
      rcases hpc with rfl | rfl
      · exact loss_of_iff (missed_pop hmd hq (by decide) hlen) hd
      · exact loss_of_iff (missed_pop hmd hq (by decide) hlen) hd
  | @popTick q tick hmd hq hpop =>
      refine loss_of_iff (missed_pop hmd hq (by decide) ?_) (by simp [Delivered, hmd])
      rw [hpop, List.length_append]
      rfl
  | count hmd =>
      rw [missed_count h hmd]
      simp [Delivered, hmd]
  | matchingStop hmain hidle =>
      exact loss_of_iff (missed_congr rfl (fun _ => rfl) Iff.rfl (fun _ => rfl) Iff.rfl) trivial
  | mdStop hmain =>
      exact loss_of_iff (missed_congr rfl (fun _ => rfl) Iff.rfl (fun _ => rfl) Iff.rfl) trivial
  | mdJoin hmain hmd =>
      exact loss_of_iff (missed_congr rfl (fun _ => rfl) Iff.rfl (fun _ => rfl) Iff.rfl) trivial

/-! ### The count after the shutdown -/

/-- The ticks of all queues are those of the queue that is read and those of the others. -/
theorem ticks_eq (h : Accounted s) :
    s.ticks = s.input.pushed.length +
      ∑ i ∈ (Finset.range s.shards).erase s.ctx.inQueue, (s.queue i).pushed.length := by
  by_cases hin : s.ctx.inQueue ∈ Finset.range s.shards
  · exact (Finset.add_sum_erase _ _ hin).symm
  · rw [Finset.erase_eq_of_notMem hin, Sys.input,
      h.outside _ (by simpa using hin), List.length_nil, zero_add, Sys.ticks]

/-- When `bt_md_stop` has returned, the count is right exactly when no tick was missed. -/
theorem tickCount_eq_iff (h : Accounted s) (hret : s.main = .returned) :
    s.ctx.tickCount.toNat = s.ticks ↔ ¬ Missed s := by
  have hmd := h.joined hret
  have hcount := h.count
  have hle : s.input.popped.length ≤ s.input.pushed.length := (h.kept s.ctx.inQueue).ring.le
  rw [hmd, MdPc.uncounted] at hcount
  rw [ticks_eq h]
  constructor
  · intro heq hmiss
    rcases hmiss with ⟨i, hi, hne⟩ | ⟨-, hleft⟩ | hunc
    · have hlt : i < s.shards := by
        by_contra hge
        exact hne (h.outside i (not_lt.1 hge))
      have hpos : 0 < (s.queue i).pushed.length := List.length_pos_iff.2 hne
      have hmem : i ∈ (Finset.range s.shards).erase s.ctx.inQueue := by simp [hi, hlt]
      have hsum := Finset.single_le_sum (f := fun i => (s.queue i).pushed.length)
        (fun _ _ => Nat.zero_le _) hmem
      change (s.queue i).pushed.length ≤ _ at hsum
      omega
    · omega
    · rw [hmd, MdPc.uncounted] at hunc
      omega
  · intro hmiss
    simp only [Missed, not_or, not_exists, not_and, not_not, hmd, MdPc.uncounted] at hmiss
    obtain ⟨hother, hleft, hunc⟩ := hmiss
    have hsum :
        ∑ i ∈ (Finset.range s.shards).erase s.ctx.inQueue, (s.queue i).pushed.length = 0 := by
      refine Finset.sum_eq_zero fun i hi => ?_
      rw [hother i (Finset.ne_of_mem_erase hi), List.length_nil]
    have := hleft trivial
    omega

/-- **`tick_count` is right after `bt_md_stop` exactly when every step met the condition**: for
every number of shards and every interleaving, once the shutdown is complete, `tick_count` is the
number of successful pushes over all shards' queues exactly when only the first shard pushed, its
queue was empty when the market-data thread saw the cleared flag, and the count did not wrap
around. -/
theorem tick_count_right_iff (shards : ℕ) (memory : ℕ → ℕ → α) (as : List (Act α))
    (hrun : run step (start shards memory) as = some s) (hret : s.main = .returned) :
    s.ctx.tickCount.toNat = s.ticks ↔ Along step Delivered (start shards memory) as := by
  have hkeep : ∀ (s : Sys α) (a : Act α) (s' : Sys α), Accounted s → True →
      step s a = some s' → Accounted s' := fun s a s' h _ => step_accounted h
  have hinit := start_accounted shards memory
  have htrue : Along step (fun _ _ => True) (start shards memory) as :=
    along_of_forall (fun _ _ => trivial) _ _
  rw [tickCount_eq_iff (run_induction hkeep hinit htrue hrun) hret]
  have hnone : ¬ Missed (start shards memory) := by
    rintro (⟨i, -, hne⟩ | ⟨hmd, -⟩ | hunc)
    · exact hne rfl
    · cases hmd
    · exact hunc rfl
  exact (along_iff_of_loss hkeep (fun s a s' h _ hstep => missed_step h hstep) hinit hnone htrue
    hrun).symm

end Step

/-- Matcher `i` pushes a tick. -/
def pushTick (i : ℕ) (tick : Char) : List (Act Char) :=
  [.call i tick, .push i, .push i, .push i, .push i]

/-- The market-data thread takes a tick from its queue and counts it. -/
def takeTick : List (Act Char) := [.md, .md, .md, .md, .md, .md]

/-- `main` joins two matchers, and `bt_md_stop` clears the flag and joins the market-data thread,
which is at the top of its loop. -/
def shutdown : List (Act Char) := [.matchingStop, .matchingStop, .mdStop, .md, .mdJoin]

/-- The hypotheses of `MarketData.tick_count_right_iff` hold of a run with two shards in which the
first one's tick is counted before the shutdown. -/
theorem tick_count_right_two_shards :
    ∃ s : Sys Char, run step (start 2 fun _ _ => ' ') (pushTick 0 'a' ++ takeTick ++ shutdown) =
        some s ∧ s.ticks = 1 ∧ s.ctx.tickCount.toNat = s.ticks :=
  ⟨_, rfl, by decide, (tick_count_right_iff 2 (fun _ _ => ' ')
    (pushTick 0 'a' ++ takeTick ++ shutdown) rfl rfl).2 (by decide)⟩

/-- A tick of the first shard is still in its queue when the market-data thread sees the flag; a
tick of the second shard is never read, although the thread has counted all its own queue held. -/
theorem ticks_go_missing :
    (∃ s : Sys Char, run step (start 2 fun _ _ => ' ') (pushTick 0 'a' ++ shutdown) = some s ∧
      s.main = .returned ∧ s.ticks = 1 ∧ s.ctx.tickCount = 0) ∧
    ∃ s : Sys Char, run step (start 2 fun _ _ => ' ')
        (pushTick 1 'b' ++ pushTick 0 'a' ++ takeTick ++ shutdown) = some s ∧
      s.main = .returned ∧ s.ticks = 2 ∧ s.ctx.tickCount = 1 :=
  ⟨⟨_, rfl, rfl, by decide, rfl⟩, ⟨_, rfl, rfl, by decide, rfl⟩⟩

end MarketData
