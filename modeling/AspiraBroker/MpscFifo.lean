/-
**The multi-producer queue as a FIFO.**

A claimed slot is written only after the tail has moved over it, and the consumer looks at nothing
but the two cursors.  So a pop can read a slot between its claim and its write, and return what an
earlier lap left there.  This module proves that this, together with the lapped claims of
`AspiraBroker/MpscQueue.lean`, is all that can go wrong: in every run in which no pop reads a slot
that its claimant has yet to write, the pops return exactly the claimed items, in the order of the
compare-and-swaps.

Main definitions:

* `Mpsc.pending` — the slot a producer has claimed and has yet to write;
* `Mpsc.ReadsWritten` — the step does not read such a slot;
* `Mpsc.FifoOrder` — what the pops returned is a prefix of what was claimed, and so is what the pop
  under way is about to return;
* `Mpsc.Fifo` — the invariant.

Main results:

* `Mpsc.step_fifo` — the invariant is kept;
* `Mpsc.pops_fifo_of_reads_written` — **the queue is a FIFO** in every run whose pops read written
  slots;
* `Mpsc.pop_returns_unwritten_slot` — a pop can return the old content of a claimed slot.
-/

import AspiraBroker.MpscQueue
import AspiraBroker.RingClaims
import Mathlib.Data.Fintype.Defs
import Mathlib.Data.Fintype.Basic

set_option relaxedAutoImplicit false
set_option autoImplicit false

namespace Mpsc

open LockfreeQueue Ring Transition

universe u v

variable {ι : Type v} {α : Type u}

/-! ### Claimed and not yet written -/

/-- The item and the slot of a push between its compare-and-swap and its write. -/
def pending : MpscPushPc α → Option (α × ℕ)
  | .write item t => some (item, t)
  | _ => none

/-- The step is not the slot read of a pop whose slot has been claimed and not yet written. -/
def ReadsWritten (s : Sys ι α) : Act ι α → Prop
  | .pop =>
      match s.pop with
      | .read h => ∀ p, (pending (s.push p)).map Prod.snd ≠ some h
      | _ => True
  | _ => True

instance [Fintype ι] (s : Sys ι α) (a : Act ι α) : Decidable (ReadsWritten s a) :=
  match a with
  | .call _ _ => isTrue trivial
  | .push _ _ => isTrue trivial
  | .pop =>
      match h : s.pop with
      | .read hd =>
          decidable_of_iff (∀ p, (pending (s.push p)).map Prod.snd ≠ some hd)
            (by simp only [ReadsWritten, h])
      | .loadHead => isTrue (by simp only [ReadsWritten, h])
      | .loadTail _ => isTrue (by simp only [ReadsWritten, h])
      | .store _ _ => isTrue (by simp only [ReadsWritten, h])

/-- The items returned by successful pops are a prefix of the items of the pushes that won the
compare-and-swap, and a pop that has read its slot is about to return the next of them. -/
def FifoOrder (s : Sys ι α) : Prop :=
  s.popped <+: s.claims ∧ ∀ h out, s.pop = .store h out → s.claims[s.popped.length]? = some out

/-! ### The invariant -/

/-- A pop that has read its slot holds the next item, and nobody is about to write the slot. -/
def PopFifo (s : Sys ι α) (pc : PopPc α) : Prop :=
  PopHolds s.claims s.popped.length pc ∧
    ∀ h out, pc = .store h out → ∀ p item, pending (s.push p) ≠ some (item, h)

/-- **The invariant**: the counters agree, the slots hold the claimed items or are about to, and
the pops have returned the first of them. -/
structure Fifo (N : Capacity) (s : Sys ι α) : Prop where
  counted : Counted N s
  slots : Slots N.slots (fun p => pending (s.push p)) s.claims s.popped.length s.q.buffer
  order : s.popped <+: s.claims
  pop : PopFifo s s.pop

theorem init_fifo (N : Capacity) (memory : ℕ → α) : Fifo N (init N memory : Sys ι α) where
  counted := init_counted N memory
  slots := Slots.empty N.slots memory
  order := List.prefix_rfl
  pop := ⟨trivial, fun h out hpc => by simp [init] at hpc⟩

theorem Fifo.fifoOrder {N : Capacity} {s : Sys ι α} (h : Fifo N s) : FifoOrder s := by
  refine ⟨h.order, fun hd out hpc => ?_⟩
  have hpop := h.pop.1
  rw [hpc] at hpop
  exact hpop

section Kept

variable [DecidableEq ι] {N : Capacity} {s s' : Sys ι α}

/-- The pending writes after a producer moves, as one update. -/
theorem pending_comp_update (f : ι → MpscPushPc α) (p : ι) (pc : MpscPushPc α) :
    (fun r => pending (Function.update f p pc r)) =
      Function.update (fun r => pending (f r)) p (pending pc) :=
  Function.comp_update pending f p pc

/-- A step of a producer that neither claims nor writes keeps the invariant, given the counters. -/
theorem Fifo.push_move (h : Fifo N s) {p : ι} {pc : MpscPushPc α} {c : ι → ℕ}
    (hpend : pending pc = pending (s.push p))
    (hc : Counted N { s with push := Function.update s.push p pc, seen := c }) :
    Fifo N { s with push := Function.update s.push p pc, seen := c } := by
  refine ⟨hc, h.slots.congr (apply_update_eq pending hpend), h.order, h.pop.1, ?_⟩
  intro hd out hpc r item
  change pending (Function.update s.push p pc r) ≠ some (item, hd)
  rw [apply_update_eq pending hpend]
  exact h.pop.2 hd out hpc r item

/-- The compare-and-swap claims the next slot for its item.  The slot the consumer may be about to
give back is not the one claimed, because the ring is not full. -/
theorem Fifo.win (h : Fifo N s) {p : ι} {item : α} {t next : ℕ}
    (hpc : s.push p = .cas item t next) (ht : s.q.tail = t)
    (hc : Counted N { s with q := { s.q with tail := next }
                             push := Function.update s.push p (.write item t)
                             claims := s.claims ++ [item] }) :
    Fifo N { s with q := { s.q with tail := next }
                    push := Function.update s.push p (.write item t)
                    claims := s.claims ++ [item] } := by
  have hring := h.counted.ring
  have hslot : t = s.claims.length % N.slots := by rw [← ht, hring.tail]
  refine ⟨hc, ?_, h.order.trans (List.prefix_append _ _), h.pop.1.append [item], ?_⟩
  · have hnone : pending (s.push p) = none := by rw [hpc]; rfl
    have hclaim := h.slots.claim hring.room hring.le hnone item
    rw [← hslot] at hclaim
    change Slots _ (fun r => pending (Function.update s.push p (.write item t) r)) _ _ _
    rw [pending_comp_update]
    exact hclaim
  · intro hd out hpp r y
    change pending (Function.update s.push p (.write item t) r) ≠ some (y, hd)
    by_cases hr : r = p
    · subst hr
      have hpopc := h.counted.pop
      rw [hpp] at hpopc
      obtain ⟨hhd, hlt⟩ := hpopc
      rw [Function.update_self, pending, Ne, Option.some.injEq, Prod.mk.injEq]
      rintro ⟨-, hth⟩
      rw [hslot, hhd, hring.head] at hth
      have := index_inj hring.le hring.room hth.symm
      omega
    · rw [Function.update_of_ne hr]
      exact h.pop.2 hd out hpp r y

/-- The write after the claim stores the item in its slot. -/
theorem Fifo.write (h : Fifo N s) {p : ι} {item : α} {t : ℕ} (hpc : s.push p = .write item t)
    (hc : Counted N { s with q := { s.q with buffer := Function.update s.q.buffer t item }
                             push := Function.update s.push p .idle }) :
    Fifo N { s with q := { s.q with buffer := Function.update s.q.buffer t item }
                    push := Function.update s.push p .idle } := by
  have hpend : pending (s.push p) = some (item, t) := by rw [hpc]; rfl
  refine ⟨hc, ?_, h.order, h.pop.1, ?_⟩
  · change Slots _ (fun r => pending (Function.update s.push p .idle r)) _ _ _
    rw [pending_comp_update]
    exact h.slots.write h.counted.ring.room hpend
  · intro hd out hpp r y
    change pending (Function.update s.push p .idle r) ≠ some (y, hd)
    by_cases hr : r = p
    · subst hr
      simp [pending]
    · rw [Function.update_of_ne hr]
      exact h.pop.2 hd out hpp r y

omit [DecidableEq ι] in
/-- A step of a pop that does not read a slot that is yet to be written keeps the slots: the slot
it gives back has no claimant. -/
theorem Fifo.pop_slots (h : Fifo N s) {r : Queue α × PopPc α × Outcome α}
    (hr : PopSteps s.q s.pop r) :
    Slots N.slots (fun p => pending (s.push p)) s.claims (s.popped ++ returned r.2.2).length
      r.1.buffer := by
  have hpop := h.pop.2
  have hpopc := h.counted.pop
  have hslots := h.slots
  generalize s.pop = pc at hr hpop hpopc
  cases hr with
  | loadHead => simpa [returned] using hslots
  | empty he => simpa [returned] using hslots
  | nonempty hne => simpa [returned] using hslots
  | read hd => simpa [returned] using hslots
  | store hd out =>
      have hno := hpop hd out rfl
      rw [hpopc.1, h.counted.ring.head] at hno
      simpa [returned] using hslots.take hno

/-- **The invariant is kept** by every step that neither makes a lapped claim on a full ring nor
reads a slot that is yet to be written. -/
theorem step_fifo {a : Act ι α} (h : Fifo N s) (hg : NoLappedClaim s a ∧ ReadsWritten s a)
    (hstep : step s a = some s') : Fifo N s' := by
  have hc := step_counted h.counted hg.1 hstep
  cases steps_of_step hstep with
  | call item hpc => exact h.push_move (by rw [hpc]; rfl) hc
  | loadTail spurious hpc => exact h.push_move (by rw [hpc]; rfl) hc
  | full spurious hpc hf => exact h.push_move (by rw [hpc]; rfl) hc
  | notFull spurious hpc hf => exact h.push_move (by rw [hpc]; rfl) hc
  | win hpc ht => exact h.win hpc ht hc
  | lose spurious hpc => exact h.push_move (by rw [hpc]; rfl) hc
  | write spurious hpc => exact h.write hpc hc
  | @pop r hr =>
      -- the slot a pop is about to read has no claimant
      have hno : ∀ hd, s.pop = .read hd → ∀ p item, pending (s.push p) ≠ some (item, hd) := by
        intro hd hpc p item hp
        have hread := hg.2
        simp only [ReadsWritten, hpc] at hread
        exact hread p (by rw [hp]; rfl)
      have hst : ∀ hd, s.pop = .read hd →
          Stored N.slots s.q.buffer s.claims s.popped.length := by
        intro hd hpc
        have hpopc := h.counted.pop
        rw [hpc] at hpopc
        refine h.slots.stored_of_no_writer le_rfl hpopc.2 ?_
        rw [← h.counted.ring.head, ← hpopc.1]
        exact hno hd hpc
      obtain ⟨hholds, horder⟩ :=
        h.pop.1.pop_step h.counted.ring h.counted.pop h.order hst hr
      refine ⟨hc, h.pop_slots hr, horder, hholds, ?_⟩
      generalize s.pop = pc at hr hno
      cases hr with
      | read hd =>
          intro hd' out heq
          obtain ⟨rfl, -⟩ : hd = hd' ∧ _ := by simpa using heq
          exact hno hd rfl
      | loadHead => intro hd out heq; simp at heq
      | empty he => intro hd out heq; simp at heq
      | nonempty hne => intro hd out heq; simp at heq
      | store hd out => intro hd' out' heq; simp at heq

/-! ### The queue is a FIFO -/

/-- **The queue is a FIFO**: in every run in which no pop reads a slot that has been claimed and not
yet written, and no claim is a lapped one on a full ring, the items returned by successful pops are
in every state a prefix of the claimed items, in the order of the compare-and-swaps, and every pop
that has read its slot holds the next of them. -/
theorem pops_fifo_of_reads_written (N : Capacity) (memory : ℕ → α) (as : List (Act ι α))
    (hclaim : Along step NoLappedClaim (init N memory) as)
    (hread : Along step ReadsWritten (init N memory) as) :
    Throughout step FifoOrder (init N memory) as := by
  have hkeep : ∀ (s : Sys ι α) (a : Act ι α) (s' : Sys ι α), Fifo N s →
      NoLappedClaim s a ∧ ReadsWritten s a → step s a = some s' → Fifo N s' :=
    fun s a s' => step_fifo
  exact throughout_of_invariant hkeep (fun s hs => hs.fifoOrder) (init_fifo N memory)
    (along_and_iff.2 ⟨hclaim, hread⟩)

end Kept

/-- A producer claims slot zero of an empty ring whose memory holds zeros, and stalls before its
write. -/
def stallRun : List (Act Unit ℕ) :=
  [.call () 7, .push () false, .push () false, .push () false, .pop, .pop, .pop, .pop]

/-- The hypotheses of `Mpsc.pops_fifo_of_reads_written` hold along a run that pushes an item and
pops it. -/
theorem pops_fifo_of_reads_written_push_pop :
    Throughout step FifoOrder (init ⟨1, le_rfl⟩ fun _ => 0)
      ([.call () 7, .push () false, .push () false, .push () false, .push () false,
        .pop, .pop, .pop, .pop] : List (Act Unit ℕ)) := by
  exact pops_fifo_of_reads_written ⟨1, le_rfl⟩ (fun _ => 0) _ (by decide) (by decide)

/-- The pop returns the zero that the memory held, which nobody pushed. -/
theorem pop_returns_unwritten_slot :
    ∃ s : Sys Unit ℕ, run step (init ⟨1, le_rfl⟩ fun _ => 0) stallRun = some s ∧
      s.claims = [7] ∧ s.popped = [0] ∧ ¬ s.popped <+: s.claims :=
  ⟨_, rfl, rfl, rfl, by decide⟩

end Mpsc
