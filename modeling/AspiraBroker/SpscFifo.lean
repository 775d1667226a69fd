/-
**The single-producer queue is a bounded queue.**

One producer runs `BT_SPSC_PUSH` and one consumer runs `BT_SPSC_POP`, one atomic step at a time.
Both decide on a copy of the other side's cursor that may be out of date by the time they act on it.
Nevertheless every call acts like a call of an ordinary first-in first-out queue that holds one item
less than the ring has slots, at one moment of its own: a push that succeeds at the store of the
tail, a push that fails at the load of the head, a pop that succeeds at the store of the head, and a
pop that fails at the load of the tail.

The moment of a failing push lies before the step in which it fails, so the machine is watched by an
observer that notes what the queue held whenever the producer loads the head.

Main definitions:

* `BoundedFifo.Does` — what a bounded first-in first-out queue does;
* `Spsc.Watched`, `Spsc.watchedStep` — the machine with its observer;
* `Spsc.FollowsFifo` — a step does what the bounded queue does at its moment;
* `Spsc.SlotsApart` — no slot is read while it is being written.

Main results:

* `Spsc.followsFifo_of_watched` — a step follows the bounded queue;
* `Spsc.refines_bounded_fifo` — **so does every step of every run**, and what was popped is always
  the first part of what was pushed.
-/

import AspiraBroker.SpscQueue

set_option relaxedAutoImplicit false
set_option autoImplicit false

universe u

/-! ### The bounded queue -/

namespace BoundedFifo

variable {α : Type u}

/-- How a call of the queue ends: a push took the item or found the queue full, a pop returned an
item or found the queue empty. -/
inductive Event (α : Type u)
  | pushed (x : α)
  | full
  | popped (x : α)
  | empty

/-- What a first-in first-out queue of the given capacity does, with its content before and
after. -/
inductive Does (cap : ℕ) : List α → Event α → List α → Prop
  | pushed {xs : List α} (x : α) : xs.length < cap → Does cap xs (.pushed x) (xs ++ [x])
  | full {xs : List α} : xs.length = cap → Does cap xs .full xs
  | popped (x : α) (xs : List α) : Does cap (x :: xs) (.popped x) xs
  | empty : Does cap [] .empty []

end BoundedFifo

namespace Spsc

open LockfreeQueue Ring Transition

variable {α : Type u}

/-! ### The observer -/

/-- What the queue holds: the items that were pushed and not yet popped. -/
def Sys.contents (s : Sys Unit α) : List α := s.items.drop s.popped.length

/-- The machine with a single producer, and what the queue held when the producer last loaded the
head. -/
structure Watched (α : Type u) where
  sys : Sys Unit α
  held : List α

/-- What the observer notes: the content of the queue, whenever the producer loads the head. -/
def noted (w : Watched α) : Act Unit α → List α
  | .push p =>
      match w.sys.push p with
      | .loadHead _ => w.sys.contents
      | _ => w.held
  | _ => w.held

/-- One step of the watched machine. -/
def watchedStep (w : Watched α) (a : Act Unit α) : Option (Watched α) :=
  (step w.sys a).map fun s' => ⟨s', noted w a⟩

/-- A fresh queue. -/
def watchedInit (N : Capacity) (memory : ℕ → α) : Watched α := ⟨init N memory, []⟩

/-- How the call ends that takes this step, if it ends with it. -/
def ending (s : Sys Unit α) : Act Unit α → Option (BoundedFifo.Event α)
  | .call _ _ => none
  | .push p =>
      match (spscPushStep s.q (s.push p)).2.2 with
      | .pending => none
      | .fail => some .full
      | .done x => some (.pushed x)
  | .pop =>
      match (spscPopStep s.q s.pop).2.2 with
      | .pending => none
      | .fail => some .empty
      | .done x => some (.popped x)

/-- The step does what the queue of capacity `N - 1` does.  A push fails as of the moment when it
loaded the head, every other call ends as of now. -/
def FollowsFifo (N : Capacity) (w : Watched α) (a : Act Unit α) : Prop :=
  ∀ w', watchedStep w a = some w' →
    match ending w.sys a with
    | none => w'.sys.contents = w.sys.contents
    | some .full =>
        BoundedFifo.Does (N.slots - 1) w.held .full w.held ∧ w'.sys.contents = w.sys.contents
    | some e => BoundedFifo.Does (N.slots - 1) w.sys.contents e w'.sys.contents

/-- The slot that a push is about to write is not the one that a pop is about to read. -/
def SlotsApart (s : Sys Unit α) : Prop :=
  ∀ item t next h, s.push () = .write item t next → s.pop = .read h → t ≠ h

/-! ### The invariant -/

/-- The invariant of the queue, and what the observer has noted for a push that has loaded the head
and not yet the tail: the counter behind that head. -/
structure WatchedKept (N : Capacity) (w : Watched α) : Prop where
  kept : Kept N w.sys
  held : ∀ item h, w.sys.push () = .loadTail item h →
    ∃ H₀, h = H₀ % N.slots ∧ H₀ + w.held.length = w.sys.pushed.length ∧
      w.sys.pushed.length < H₀ + N.slots

theorem watchedInit_kept (N : Capacity) (memory : ℕ → α) :
    WatchedKept N (watchedInit N memory) where
  kept := init_kept N memory
  held := by intro item h hpc; simp [watchedInit, init] at hpc

theorem length_contents (s : Sys Unit α) :
    s.contents.length = s.pushed.length - s.popped.length := by
  simp [Sys.contents]

theorem watchedStep_eq_some {w w' : Watched α} {a : Act Unit α} (h : watchedStep w a = some w') :
    step w.sys a = some w'.sys ∧ w'.held = noted w a := by
  obtain ⟨s', hs', rfl⟩ := Option.map_eq_some_iff.1 h
  exact ⟨hs', rfl⟩

/-- **The invariant is kept.**  Between the two loads of a push only the consumer moves, and it
changes neither the tail nor what was noted. -/
theorem watchedStep_kept {N : Capacity} {w w' : Watched α} {a : Act Unit α} (hw : WatchedKept N w)
    (h : watchedStep w a = some w') : WatchedKept N w' := by
  obtain ⟨hstep, hnoted⟩ := watchedStep_eq_some h
  refine ⟨step_kept hw.kept (exclusiveStore_of_subsingleton _ _) hstep, fun item hd hpc' => ?_⟩
  have hle := hw.kept.ring.le
  cases w' with
  | mk s' held' =>
      change held' = noted w a at hnoted
      subst hnoted
      cases steps_of_step hstep with
      | call x hpc => simp at hpc'
      | loadHead hpc =>
          obtain ⟨-, rfl⟩ : _ ∧ w.sys.q.head = hd := by simpa using hpc'
          refine ⟨w.sys.popped.length, hw.kept.ring.head, ?_, hw.kept.ring.room⟩
          simp only [noted, hpc, length_contents]
          omega
      | full hpc hf => simp at hpc'
      | notFull hpc hf => simp at hpc'
      | write hpc => simp at hpc'
      | store hpc => simp at hpc'
      | pop hr => exact hw.held item hd hpc'

/-! ### Every step follows the bounded queue -/

section Follows

variable {N : Capacity} {w : Watched α}

/-- A push that finds the ring full loaded the head of a full queue: the tail has not moved
since. -/
theorem WatchedKept.full (hw : WatchedKept N w) {item : α} {hd : ℕ}
    (hpc : w.sys.push () = .loadTail item hd) (hf : (w.sys.q.tail + 1) &&& w.sys.q.mask = hd) :
    w.held.length = N.slots - 1 := by
  obtain ⟨H₀, rfl, hheld, hroom⟩ := hw.held item hd hpc
  rw [hw.kept.ring.tail, hw.kept.ring.mask, N.next_index] at hf
  have := (N.next_eq_iff_full (by omega) hroom).1 hf
  omega

/-- A push that stores the tail appends its item to a queue that was not full. -/
theorem WatchedKept.pushed (hw : WatchedKept N w) {item : α} {next : ℕ}
    (hpc : w.sys.push () = .store item next) :
    BoundedFifo.Does (N.slots - 1) w.sys.contents (.pushed item)
      ((w.sys.items ++ [item]).drop w.sys.popped.length) := by
  have hle : w.sys.popped.length ≤ w.sys.items.length := by simpa using hw.kept.ring.le
  have hp := hw.kept.push ()
  rw [hpc] at hp
  rw [List.drop_append_of_le_length hle]
  refine .pushed item ?_
  rw [length_contents]
  have hle' := hw.kept.ring.le
  have hfree := hp.2
  omega

/-- A pop that finds the cursors equal loaded the tail of an empty queue. -/
theorem WatchedKept.empty (hw : WatchedKept N w) {hd : ℕ} (hpc : w.sys.pop = .loadTail hd)
    (he : hd = w.sys.q.tail) : w.sys.contents = [] := by
  have hp := hw.kept.pop
  rw [hpc] at hp
  have hall : w.sys.popped.length = w.sys.pushed.length :=
    hw.kept.ring.empty_iff.1 (hp.symm.trans he)
  simp [Sys.contents, hall]

/-- A pop that stores the head takes the first item off the queue. -/
theorem WatchedKept.popped (hw : WatchedKept N w) {hd : ℕ} {out : α}
    (hpc : w.sys.pop = .store hd out) :
    BoundedFifo.Does (N.slots - 1) w.sys.contents (.popped out)
      (w.sys.items.drop (w.sys.popped ++ [out]).length) := by
  have hout := hw.kept.holds
  rw [hpc] at hout
  obtain ⟨hlt, hget⟩ := List.getElem?_eq_some_iff.1 hout
  have hfirst : w.sys.contents = out :: w.sys.items.drop (w.sys.popped.length + 1) := by
    rw [Sys.contents, List.drop_eq_getElem_cons hlt, hget]
  rw [hfirst, List.length_append, List.length_singleton]
  exact .popped out _

/-- **A step follows the bounded queue.** -/
theorem followsFifo_of_watched (hw : WatchedKept N w) (a : Act Unit α) : FollowsFifo N w a := by
  intro w' h
  obtain ⟨hstep, -⟩ := watchedStep_eq_some h
  cases w' with
  | mk s' held' =>
      cases steps_of_step hstep with
      | call x hpc => rfl
      | loadHead hpc => simp only [ending, hpc, spscPushStep]; rfl
      | full hpc hf =>
          simp only [ending, hpc, spscPushStep, hf, ne_eq, not_true_eq_false, if_false]
          exact ⟨.full (hw.full hpc hf), rfl⟩
      | notFull hpc hf =>
          simp only [ending, hpc, spscPushStep, ne_eq, hf, not_false_eq_true, if_true]
          rfl
      | write hpc => simp only [ending, hpc, spscPushStep]; rfl
      | store hpc =>
          have hpushed := hw.pushed hpc
          simp only [ending, hpc, spscPushStep]
          simpa only [Sys.contents, Sys.items, List.map_append, List.map_cons, List.map_nil]
            using hpushed
      | pop hr =>
          simp only [ending, spscPopStep, hr.result_eq]
          generalize hpc : w.sys.pop = pc at hr
          cases hr with
          | loadHead => simp [Sys.contents, Sys.items, returned]
          | nonempty hne => simp [Sys.contents, Sys.items, returned]
          | read hd => simp [Sys.contents, Sys.items, returned]
          | empty he =>
              have hnil := hw.empty hpc he
              simp only [Sys.contents, Sys.items, returned, List.append_nil] at hnil ⊢
              rw [hnil]
              exact .empty
          | store hd out => exact hw.popped hpc

/-- A pop reads a slot of the queue, a push writes the free slot behind it. -/
theorem WatchedKept.slotsApart (hw : WatchedKept N w) : SlotsApart w.sys := by
  intro item t next hd hpush hpop heq
  have hp := hw.kept.push ()
  have hr := hw.kept.pop
  rw [hpush] at hp
  rw [hpop] at hr
  obtain ⟨rfl, -, hfree⟩ := hp
  obtain ⟨rfl, hlt⟩ := hr
  rw [hw.kept.ring.head] at heq
  have := index_inj hlt.le (by omega) heq.symm
  omega

end Follows

/-- **The queue refines a bounded first-in first-out queue of one item less than it has slots**:
under every interleaving of the producer and the consumer every step does what the bounded queue
does, what was popped is a prefix of what was pushed, and no slot is read while it is written. -/
theorem refines_bounded_fifo (N : Capacity) (memory : ℕ → α) (as : List (Act Unit α)) :
    Along watchedStep (FollowsFifo N) (watchedInit N memory) as ∧
      Throughout watchedStep (fun w => w.sys.popped <+: w.sys.items ∧ SlotsApart w.sys)
        (watchedInit N memory) as := by
  have hkeep : ∀ (w : Watched α) (a : Act Unit α) (w' : Watched α), WatchedKept N w → True →
      watchedStep w a = some w' → WatchedKept N w' := fun _ _ _ hw _ h => watchedStep_kept hw h
  have hinit := watchedInit_kept N memory
  have hfree : Along watchedStep (fun _ _ => True) (watchedInit N memory) as :=
    along_of_forall (fun _ _ => trivial) _ as
  exact ⟨along_of_invariant hkeep (fun w a hw _ => followsFifo_of_watched hw a) hinit hfree,
    throughout_of_invariant hkeep (fun w hw => ⟨hw.kept.order, hw.slotsApart⟩) hinit hfree⟩

end Spsc
