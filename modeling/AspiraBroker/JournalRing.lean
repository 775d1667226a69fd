/-
**The ring of the journal.**

The journal hands one single-producer ring to every thread that appends.  What the journal does to
its ring is a run of `Spsc.step`: an appender's steps are steps of its push, and of the worker's
steps only those inside `BT_SPSC_POP` touch the ring.  So the queue's invariant carries over to the
journal as long as no append stores the tail while another append is inside its push.

Main definitions:

* `Journal.ExclusiveAppend` — no append stores the tail while another one is inside its push.

Main results:

* `Journal.ring_step` — a step leaves the ring alone or is a step of the ring;
* `Journal.step_ring_kept` — the ring's invariant is kept;
* `Journal.append_loses_nothing_of_exclusive` — **no appended entry is lost, popped twice or
  reordered**;
* `Journal.two_appends_share_a_slot` — two overlapping appends lose an entry.
-/

import AspiraBroker.Journal

set_option relaxedAutoImplicit false
set_option autoImplicit false

namespace Journal

open LockfreeQueue Ring Transition

universe v

variable {ι : Type v}

/-! ### Steps of the journal as steps of its ring -/

/-- No append stores the tail while another one is inside its push. -/
def ExclusiveAppend (s : Sys ι) : Act ι → Prop
  | .push p => Spsc.ExclusiveStore s.ring (.push p)
  | _ => True

instance [DecidableEq ι] [Fintype ι] (s : Sys ι) : ∀ a, Decidable (ExclusiveAppend s a)
  | .push p => inferInstanceAs (Decidable (Spsc.ExclusiveStore s.ring (.push p)))
  | .append .. | .work _ | .flush | .stop | .join => isTrue trivial

/-- A single appender meets the condition. -/
theorem exclusiveAppend_of_subsingleton [Subsingleton ι] (s : Sys ι) (a : Act ι) :
    ExclusiveAppend s a := by
  cases a with
  | push p => exact Spsc.exclusiveStore_of_subsingleton s.ring (.push p)
  | append p entry => trivial
  | work env => trivial
  | flush => trivial
  | stop => trivial
  | join => trivial

section Step

variable [DecidableEq ι] {s s' : Sys ι}

/-- **A step leaves the ring alone or is a step of the ring**, of the same appender if it is one of
an append, and otherwise of the consumer. -/
theorem ring_step {a : Act ι} (hg : ExclusiveAppend s a) (h : step s a = some s') :
    s'.ring = s.ring ∨ ∃ b, Spsc.ExclusiveStore s.ring b ∧ Spsc.step s.ring b = some s'.ring := by
  cases steps_of_step h with
  | @append p entry ring hm hring => exact Or.inr ⟨.call p entry, trivial, hring⟩
  | @push p ring hring => exact Or.inr ⟨.push p, hg, hring⟩
  | popWait hw hpop => exact Or.inr ⟨.pop, trivial, hpop⟩
  | popEmpty hw hpop => exact Or.inr ⟨.pop, trivial, hpop⟩
  | popEntry hw hpop => exact Or.inr ⟨.pop, trivial, hpop⟩
  | writeEnd hw hf => exact Or.inl (by simp [flushDone])
  | alloc => exact Or.inl rfl
  | allocFail => exact Or.inl rfl
  | loopOn => exact Or.inl rfl
  | loopFlush => exact Or.inl rfl
  | loopExit => exact Or.inl rfl
  | batchFull => exact Or.inl rfl
  | capFlush => exact Or.inl rfl
  | capOk => exact Or.inl rfl
  | copyIn => exact Or.inl rfl
  | copyOver => exact Or.inl rfl
  | timerFlush => exact Or.inl rfl
  | timerSkip => exact Or.inl rfl
  | writeMore => exact Or.inl rfl
  | flush => exact Or.inl rfl
  | stop => exact Or.inl rfl
  | join => exact Or.inl rfl

/-- The ring's invariant is kept. -/
theorem step_ring_kept {a : Act ι} (hs : Spsc.Kept ringCapacity s.ring) (hg : ExclusiveAppend s a)
    (h : step s a = some s') : Spsc.Kept ringCapacity s'.ring := by
  rcases ring_step hg h with heq | ⟨b, hb, hring⟩
  · rw [heq]
    exact hs
  · exact Spsc.step_kept hs hb hring

/-! ### No entry is lost -/

/-- **Appending loses nothing**: in every run in which no append stores the tail while another one
is inside its push, the entries popped are in every state a prefix of the entries whose append
returned `0`, in the order of the appends, and the entries after them are still in their slots. -/
theorem append_loses_nothing_of_exclusive (file : List UInt8) (syncIntervalMs : ℤ)
    (as : List (Act ι)) (h : Along step ExclusiveAppend (btJournalOpen file syncIntervalMs) as) :
    Throughout step (fun s => Spsc.LosesNothing ringCapacity s.ring)
      (btJournalOpen file syncIntervalMs) as := by
  have hkeep : ∀ (s : Sys ι) (a : Act ι) (s' : Sys ι), Spsc.Kept ringCapacity s.ring →
      ExclusiveAppend s a → step s a = some s' → Spsc.Kept ringCapacity s'.ring :=
    fun s a s' => step_ring_kept
  exact throughout_of_invariant hkeep (fun s hs => hs.losesNothing) (Spsc.init_kept _ _) h

end Step

/-- The first thread's append, the second thread's append, and a pop of the worker. -/
def appendsInTurn : List (Act Bool) :=
  [.append false (.fill 1), .append true (.fill 2), .push false, .push false, .push false,
    .push false, .push true, .push true, .push true, .push true,
    .work calm, .work calm, .work calm, .work calm, .work calm, .work calm]

/-- The hypothesis of `Journal.append_loses_nothing_of_exclusive` holds along a run in which two
threads append one after the other and the worker pops an entry. -/
theorem append_loses_nothing_in_turn :
    Throughout step (fun s => Spsc.LosesNothing ringCapacity s.ring) (btJournalOpen [] 1)
      appendsInTurn :=
  append_loses_nothing_of_exclusive [] 1 appendsInTurn (by decide)

/-- Two threads load the same tail and write their entries to the same slot before either of them
stores the tail. -/
def appendsAtOnce : List (Act Bool) :=
  [.append false (.fill 1), .append true (.fill 2), .push false, .push true, .push false,
    .push true, .push false, .push true, .push false, .push true,
    .work calm, .work calm, .work calm, .work calm, .work calm, .work calm]

/-- Both appends return `0`, the second entry has overwritten the first, and the worker pops the
second one only: the ring is empty then. -/
theorem two_appends_share_a_slot :
    ∃ s : Sys Bool, run step (btJournalOpen [] 1) appendsAtOnce = some s ∧
      s.ring.pushed = [(false, .fill 1), (true, .fill 2)] ∧ s.dropped = 0 ∧
      s.ring.popped = [.fill 2] ∧ s.ring.q.head = s.ring.q.tail ∧
      ¬ Spsc.LosesNothing ringCapacity s.ring := by
  refine ⟨_, rfl, rfl, rfl, rfl, rfl, fun h => ?_⟩
  have hpre : [JournalEntry.fill 2] <+: [JournalEntry.fill 1, JournalEntry.fill 2] := h.1
  simp [JournalEntry.fill, sizeofJournalEntry, List.replicate] at hpre

end Journal
