/-
**The lock-free ring queues, one atomic step at a time.**

`bt_lockfree_queue.h` defines two ring queues over one layout: a single-producer queue, whose push
loads both cursors, writes the slot and stores the tail, and a multi-producer queue, whose push
claims a slot by a compare-and-swap on the tail and writes the slot afterwards.  Both pops are the
same code.  Here each macro is a program counter and a step function, where a step is one atomic
load, store or compare-and-swap, or one whole-slot read or write of the buffer; the machines of
`AspiraBroker/MpscQueue.lean` and `AspiraBroker/SpscQueue.lean` interleave these steps.

Main definitions:

* `LockfreeQueue.Queue` — the fields of `BT_SPSC_QUEUE_DEF` and `BT_MPSC_QUEUE_DEF`;
* `LockfreeQueue.ringPopStep`, with `LockfreeQueue.spscPopStep` and `LockfreeQueue.mpscPopStep` —
  `BT_SPSC_POP` and `BT_MPSC_POP`;
* `LockfreeQueue.spscPushStep` — `BT_SPSC_PUSH`;
* `LockfreeQueue.mpscPushStep` — `BT_MPSC_PUSH`;
* `LockfreeQueue.Counters` — the number of items ever put in and ever taken out, against the masked
  cursors.

Main results:

* `LockfreeQueue.Counters.pop_step` — what a step of a pop does to the counters;
* `LockfreeQueue.PopHolds.pop_step` — a pop that reads the slot of the next item returns it.
-/

import AspiraBroker.RingIndex

set_option relaxedAutoImplicit false
set_option autoImplicit false

namespace LockfreeQueue

open Ring (Capacity Stored)

universe u

variable {α : Type u}

/-! ### The queue -/

/-- A ring queue: the two cursors, the slots and the index mask. -/
structure Queue (α : Type u) where
  head : ℕ
  tail : ℕ
  buffer : ℕ → α
  mask : ℕ

/-- `BT_SPSC_QUEUE_INIT` and `BT_MPSC_QUEUE_INIT`: both cursors at zero, the mask one less than the
number of slots.  The slots keep whatever the memory held. -/
def queueInit (N : Capacity) (memory : ℕ → α) : Queue α where
  head := 0
  tail := 0
  buffer := memory
  mask := N.slots - 1

/-! ### Pop -/

/-- Where a pop stands: before the load of the head, before the load of the tail with the loaded
head, before the read of the slot, before the store of the head with the value read. -/
inductive PopPc (α : Type u)
  | loadHead
  | loadTail (h : ℕ)
  | read (h : ℕ)
  | store (h : ℕ) (out : α)

/-- What a step of a call returns to its caller: nothing yet, `0`, or `1` with a value. -/
inductive Outcome (α : Type u)
  | pending
  | fail
  | done (value : α)

/-- One step of a pop.  It finds the ring empty when the two loaded cursors agree, and otherwise
reads the slot at the head it loaded and moves the head past it with a plain store. -/
def ringPopStep (q : Queue α) : PopPc α → Queue α × PopPc α × Outcome α
  | .loadHead => (q, .loadTail q.head, .pending)
  | .loadTail h => if h ≠ q.tail then (q, .read h, .pending) else (q, .loadHead, .fail)
  | .read h => (q, .store h (q.buffer h), .pending)
  | .store h out => ({ q with head := (h + 1) &&& q.mask }, .loadHead, .done out)

/-- `BT_SPSC_POP`. -/
def spscPopStep (q : Queue α) (pc : PopPc α) : Queue α × PopPc α × Outcome α := ringPopStep q pc

/-- `BT_MPSC_POP`. -/
def mpscPopStep (q : Queue α) (pc : PopPc α) : Queue α × PopPc α × Outcome α := ringPopStep q pc

/-! ### Single-producer push -/

/-- Where a single-producer push of `item` stands; `idle` is outside the call. -/
inductive SpscPushPc (α : Type u)
  | idle
  | loadHead (item : α)
  | loadTail (item : α) (h : ℕ)
  | write (item : α) (t next : ℕ)
  | store (item : α) (next : ℕ)

/-- One step of `BT_SPSC_PUSH`.  The head is loaded first, then the tail; the full test is part of
the step that loads the tail. -/
def spscPushStep (q : Queue α) : SpscPushPc α → Queue α × SpscPushPc α × Outcome α
  | .idle => (q, .idle, .pending)
  | .loadHead item => (q, .loadTail item q.head, .pending)
  | .loadTail item h =>
      let next := (q.tail + 1) &&& q.mask
      if next ≠ h then (q, .write item q.tail next, .pending) else (q, .idle, .fail)
  | .write item t next =>
      ({ q with buffer := Function.update q.buffer t item }, .store item next, .pending)
  | .store item next => ({ q with tail := next }, .idle, .done item)

/-! ### Multi-producer push -/

/-- Where a multi-producer push of `item` stands; `idle` is outside the call. -/
inductive MpscPushPc (α : Type u)
  | idle
  | loadTail (item : α)
  | loadHead (item : α) (t : ℕ)
  | cas (item : α) (t next : ℕ)
  | write (item : α) (t : ℕ)

/-- One step of `BT_MPSC_PUSH`.  The compare-and-swap is the weak one, so it may fail on equal
values (`spurious`); either way a failure goes back to the load of the tail.  The slot is written
only after the compare-and-swap has moved the tail over it. -/
def mpscPushStep (spurious : Bool) (q : Queue α) :
    MpscPushPc α → Queue α × MpscPushPc α × Outcome α
  | .idle => (q, .idle, .pending)
  | .loadTail item => (q, .loadHead item q.tail, .pending)
  | .loadHead item t =>
      let next := (t + 1) &&& q.mask
      if next = q.head then (q, .idle, .fail) else (q, .cas item t next, .pending)
  | .cas item t next =>
      if q.tail = t ∧ spurious = false then ({ q with tail := next }, .write item t, .pending)
      else (q, .loadTail item, .pending)
  | .write item t => ({ q with buffer := Function.update q.buffer t item }, .idle, .done item)

/-! ### What a step of a pop can do -/

/-- The items a call returns in a step. -/
def returned : Outcome α → List α
  | .done v => [v]
  | _ => []

/-- Everything a step of a pop can do. -/
inductive PopSteps (q : Queue α) : PopPc α → Queue α × PopPc α × Outcome α → Prop
  | loadHead : PopSteps q .loadHead (q, .loadTail q.head, .pending)
  | empty {h : ℕ} : h = q.tail → PopSteps q (.loadTail h) (q, .loadHead, .fail)
  | nonempty {h : ℕ} : h ≠ q.tail → PopSteps q (.loadTail h) (q, .read h, .pending)
  | read (h : ℕ) : PopSteps q (.read h) (q, .store h (q.buffer h), .pending)
  | store (h : ℕ) (out : α) :
      PopSteps q (.store h out) ({ q with head := (h + 1) &&& q.mask }, .loadHead, .done out)

theorem popSteps_ringPopStep (q : Queue α) (pc : PopPc α) : PopSteps q pc (ringPopStep q pc) := by
  cases pc with
  | loadHead => exact .loadHead
  | loadTail h =>
      by_cases he : h = q.tail
      · simp only [ringPopStep, he, ne_eq, not_true_eq_false, if_false]
        exact .empty rfl
      · simp only [ringPopStep, ne_eq, he, not_false_eq_true, if_true]
        exact .nonempty he
  | read h => exact .read h
  | store h out => exact .store h out

/-- The listed steps are all of them. -/
theorem PopSteps.result_eq {q : Queue α} {pc : PopPc α} {r : Queue α × PopPc α × Outcome α}
    (hr : PopSteps q pc r) : ringPopStep q pc = r := by
  cases hr with
  | loadHead => rfl
  | empty he => simp [ringPopStep, he]
  | nonempty hne => simp [ringPopStep, hne]
  | read h => rfl
  | store h out => rfl

/-- A pop writes no slot. -/
theorem PopSteps.buffer_eq {q : Queue α} {pc : PopPc α} {r : Queue α × PopPc α × Outcome α}
    (hr : PopSteps q pc r) : r.1.buffer = q.buffer := by
  cases hr with
  | loadHead => rfl
  | empty he => rfl
  | nonempty hne => rfl
  | read h => rfl
  | store h out => rfl

/-! ### The counters behind the cursors -/

/-- `T` items were ever put into the ring and `H` ever taken out: the cursors are these counters
modulo the number of slots, and at most all slots but one are in use. -/
structure Counters (N : Capacity) (q : Queue α) (T H : ℕ) : Prop where
  mask : q.mask = N.mask
  tail : q.tail = T % N.slots
  head : q.head = H % N.slots
  le : H ≤ T
  room : T < H + N.slots

theorem queueInit_counters (N : Capacity) (memory : ℕ → α) :
    Counters N (queueInit N memory) 0 0 where
  mask := rfl
  tail := by simp [queueInit]
  head := by simp [queueInit]
  le := le_rfl
  room := by simpa using N.slots_pos

namespace Counters

variable {N : Capacity} {q : Queue α} {T H : ℕ}

/-- Fullness, read on the counters. -/
theorem full_iff (h : Counters N q T H) :
    (q.tail + 1) &&& q.mask = q.head ↔ T + 1 = H + N.slots := by
  rw [h.tail, h.head, h.mask, N.next_index]
  exact N.next_eq_iff_full h.le h.room

/-- Emptiness, read on the counters. -/
theorem empty_iff (h : Counters N q T H) : q.head = q.tail ↔ H = T := by
  rw [h.tail, h.head]
  exact N.index_eq_iff_empty h.le h.room

/-- Putting an item into a ring that is not full. -/
theorem put (h : Counters N q T H) (hfree : T + 1 < H + N.slots) :
    Counters N { q with tail := (T + 1) % N.slots } (T + 1) H :=
  ⟨h.mask, rfl, h.head, h.le.trans (Nat.le_succ T), hfree⟩

/-- Writing a slot. -/
theorem setBuffer (h : Counters N q T H) (b : ℕ → α) : Counters N { q with buffer := b } T H :=
  ⟨h.mask, h.tail, h.head, h.le, h.room⟩

end Counters

/-- What the counters say about where a pop stands: the head it loaded is the current one, and past
the empty test there is something to take. -/
def PopCounted (q : Queue α) (T H : ℕ) : PopPc α → Prop
  | .loadHead => True
  | .loadTail h => h = q.head
  | .read h => h = q.head ∧ H < T
  | .store h _ => h = q.head ∧ H < T

/-- A pop's knowledge survives whatever leaves the head alone and takes nothing away. -/
theorem PopCounted.mono {q q' : Queue α} {T T' H : ℕ} {pc : PopPc α} (h : PopCounted q T H pc)
    (hq : q'.head = q.head) (hT : T ≤ T') : PopCounted q' T' H pc := by
  cases pc with
  | loadHead => trivial
  | loadTail hd => exact h.trans hq.symm
  | read hd => exact ⟨h.1.trans hq.symm, h.2.trans_le hT⟩
  | store hd out => exact ⟨h.1.trans hq.symm, h.2.trans_le hT⟩

/-- **What a step of a pop does to the counters**: one more item is taken out when it returns
one. -/
theorem Counters.pop_step {N : Capacity} {q : Queue α} {T H : ℕ} {pc : PopPc α}
    {r : Queue α × PopPc α × Outcome α} (h : Counters N q T H) (hp : PopCounted q T H pc)
    (hr : PopSteps q pc r) :
    Counters N r.1 T (H + (returned r.2.2).length) ∧
      PopCounted r.1 T (H + (returned r.2.2).length) r.2.1 := by
  cases hr with
  | loadHead => exact ⟨h, rfl⟩
  | empty he => exact ⟨h, trivial⟩
  | nonempty hne =>
      have hlt : H < T := by
        refine lt_of_le_of_ne h.le fun hHT => hne ?_
        rw [hp]
        exact h.empty_iff.2 hHT
      exact ⟨h, hp, hlt⟩
  | read hd => exact ⟨h, hp⟩
  | store hd out =>
      obtain ⟨hhd, hlt⟩ := hp
      refine ⟨⟨h.mask, h.tail, ?_, hlt, h.room.trans (by simp [returned])⟩, trivial⟩
      change (hd + 1) &&& q.mask = (H + 1) % N.slots
      rw [hhd, h.head, h.mask, N.next_index]

/-- A pop that has read its slot holds item number `H` of `xs`. -/
def PopHolds (xs : List α) (H : ℕ) : PopPc α → Prop
  | .store _ out => xs[H]? = some out
  | _ => True

/-- More items behind it do not change what a pop holds. -/
theorem PopHolds.append {xs : List α} {H : ℕ} {pc : PopPc α} (h : PopHolds xs H pc)
    (ys : List α) : PopHolds (xs ++ ys) H pc := by
  cases pc with
  | store hd out =>
      have hlt : H < xs.length := (List.getElem?_eq_some_iff.1 h).1
      rw [PopHolds, List.getElem?_append_left hlt]
      exact h
  | loadHead => trivial
  | loadTail hd => trivial
  | read hd => trivial

/-- **A pop that reads the slot of the next item returns it**: what was popped stays a prefix of
what was put in. -/
theorem PopHolds.pop_step {N : Capacity} {q : Queue α} {T : ℕ} {pc : PopPc α}
    {r : Queue α × PopPc α × Outcome α} {xs popped : List α}
    (hold : PopHolds xs popped.length pc) (h : Counters N q T popped.length)
    (hp : PopCounted q T popped.length pc) (horder : popped <+: xs)
    (hread : ∀ hd, pc = .read hd → Stored N.slots q.buffer xs popped.length)
    (hr : PopSteps q pc r) :
    PopHolds xs (popped ++ returned r.2.2).length r.2.1 ∧ popped ++ returned r.2.2 <+: xs := by
  cases hr with
  | loadHead => exact ⟨trivial, by simpa [returned] using horder⟩
  | empty he => exact ⟨trivial, by simpa [returned] using horder⟩
  | nonempty hne => exact ⟨trivial, by simpa [returned] using horder⟩
  | read hd =>
      refine ⟨?_, by simpa [returned] using horder⟩
      have hst := hread hd rfl
      rw [Stored, ← h.head, ← hp.1] at hst
      simpa [returned, PopHolds] using hst
  | store hd out =>
      refine ⟨trivial, ?_⟩
      change popped ++ [out] <+: xs
      have hout : xs[popped.length]? = some out := hold
      rw [List.prefix_iff_eq_take, List.length_append, List.length_singleton, List.take_add_one,
        hout, ← List.prefix_iff_eq_take.1 horder]
      rfl

end LockfreeQueue
