/-
**The multi-producer queue under every interleaving.**

Any number of producers run `BT_MPSC_PUSH` and one consumer runs `BT_MPSC_POP`, one atomic step at
a time and in any order.  A producer reads the tail, tests for a full ring against the head, and
claims the slot by a compare-and-swap that compares a *masked* index: a producer that stalls for a
whole lap of the ring finds the index it remembers back in place, and its compare-and-swap succeeds
on a full test that was made a lap ago.

This module counts.  Behind the masked cursors stand the number of slots ever claimed and the
number ever taken, and the counting invariant says that the ring is never over-claimed as long as
no producer wins its compare-and-swap on a full ring with an index that is laps old.

Main definitions:

* `Mpsc.Sys`, `Mpsc.Act`, `Mpsc.step`, `Mpsc.init` — the machine;
* `Mpsc.casWins` — the step is a compare-and-swap that claims a slot;
* `Mpsc.ClaimsFreeSlot`, `Mpsc.KeepsNonempty`, `Mpsc.WithinCapacity` — what a claim must not do;
* `Mpsc.NoLappedClaim` — no claim is made on a full ring with an index that is laps old;
* `Mpsc.Counted` — the counting invariant.

Main results:

* `Mpsc.step_counted` — the counting invariant is kept;
* `Mpsc.never_overclaimed_iff` — **a run never over-claims the ring exactly when none of its claims
  is lapped**;
* `Mpsc.lapped_claim_empties_full_ring` — such a claim can happen.
-/

import AspiraBroker.LockfreeQueue
import AspiraBroker.TransitionRuns

set_option relaxedAutoImplicit false
set_option autoImplicit false

namespace Mpsc

open LockfreeQueue Ring Transition

universe u v

variable {ι : Type v} {α : Type u}

/-! ### The machine -/

/-- The queue, where each producer and the consumer stand, and the history: the items of the pushes
that won their compare-and-swap, in that order; the items returned by successful pops; and, for
each producer, how many slots had been claimed when it last loaded the tail. -/
structure Sys (ι : Type v) (α : Type u) where
  q : Queue α
  push : ι → MpscPushPc α
  pop : PopPc α
  claims : List α
  popped : List α
  seen : ι → ℕ

/-- A producer calls push, a producer takes a step of its push, the consumer takes a step of its
pop. -/
inductive Act (ι : Type v) (α : Type u)
  | call (p : ι) (item : α)
  | push (p : ι) (spurious : Bool)
  | pop

/-- A freshly initialised queue with nobody inside a call. -/
def init (N : Capacity) (memory : ℕ → α) : Sys ι α where
  q := queueInit N memory
  push := fun _ => .idle
  pop := .loadHead
  claims := []
  popped := []
  seen := fun _ => 0

/-- Does this step of a producer win the compare-and-swap on the tail? -/
def pushWins (spurious : Bool) (q : Queue α) : MpscPushPc α → Bool
  | .cas _ t _ => decide (q.tail = t) && !spurious
  | _ => false

/-- The item a winning compare-and-swap claims a slot for. -/
def claimed (spurious : Bool) (q : Queue α) : MpscPushPc α → List α
  | .cas item t next => if pushWins spurious q (.cas item t next) then [item] else []
  | _ => []

section Step

variable [DecidableEq ι]

/-- The count of claims a producer remembers: taken when it loads the tail. -/
def seenAfter (s : Sys ι α) (p : ι) : MpscPushPc α → ι → ℕ
  | .loadTail _ => Function.update s.seen p s.claims.length
  | _ => s.seen

/-- One step of the machine. -/
def step (s : Sys ι α) : Act ι α → Option (Sys ι α)
  | .call p item =>
      match s.push p with
      | .idle => some { s with push := Function.update s.push p (.loadTail item) }
      | _ => none
  | .push p spurious =>
      match s.push p with
      | .idle => none
      | pc =>
          let r := mpscPushStep spurious s.q pc
          some { s with
            q := r.1
            push := Function.update s.push p r.2.1
            claims := s.claims ++ claimed spurious s.q pc
            seen := seenAfter s p pc }
  | .pop =>
      let r := mpscPopStep s.q s.pop
      some { s with q := r.1, pop := r.2.1, popped := s.popped ++ returned r.2.2 }

/-- Everything a step can do, one constructor for each atomic step of the two macros. -/
inductive Steps (s : Sys ι α) : Act ι α → Sys ι α → Prop
  | call {p : ι} (item : α) : s.push p = .idle →
      Steps s (.call p item) { s with push := Function.update s.push p (.loadTail item) }
  | loadTail {p : ι} {item : α} (spurious : Bool) : s.push p = .loadTail item →
      Steps s (.push p spurious)
        { s with push := Function.update s.push p (.loadHead item s.q.tail)
                 seen := Function.update s.seen p s.claims.length }
  | full {p : ι} {item : α} {t : ℕ} (spurious : Bool) : s.push p = .loadHead item t →
      (t + 1) &&& s.q.mask = s.q.head →
      Steps s (.push p spurious) { s with push := Function.update s.push p .idle }
  | notFull {p : ι} {item : α} {t : ℕ} (spurious : Bool) : s.push p = .loadHead item t →
      (t + 1) &&& s.q.mask ≠ s.q.head →
      Steps s (.push p spurious)
        { s with push := Function.update s.push p (.cas item t ((t + 1) &&& s.q.mask)) }
  | win {p : ι} {item : α} {t next : ℕ} : s.push p = .cas item t next → s.q.tail = t →
      Steps s (.push p false)
        { s with q := { s.q with tail := next }
                 push := Function.update s.push p (.write item t)
                 claims := s.claims ++ [item] }
  | lose {p : ι} {item : α} {t next : ℕ} (spurious : Bool) : s.push p = .cas item t next →
      Steps s (.push p spurious) { s with push := Function.update s.push p (.loadTail item) }
  | write {p : ι} {item : α} {t : ℕ} (spurious : Bool) : s.push p = .write item t →
      Steps s (.push p spurious)
        { s with q := { s.q with buffer := Function.update s.q.buffer t item }
                 push := Function.update s.push p .idle }
  | pop {r : Queue α × PopPc α × Outcome α} : PopSteps s.q s.pop r →
      Steps s .pop { s with q := r.1, pop := r.2.1, popped := s.popped ++ returned r.2.2 }

theorem steps_of_push {s s' : Sys ι α} {p : ι} {spurious : Bool}
    (h : step s (.push p spurious) = some s') : Steps s (.push p spurious) s' := by
  cases hpc : s.push p with
  | idle => simp [step, hpc] at h
  | loadTail item =>
      simp only [step, hpc, mpscPushStep, claimed, seenAfter, List.append_nil,
        Option.some.injEq] at h
      subst h
      exact .loadTail spurious hpc
  | loadHead item t =>
      by_cases hf : (t + 1) &&& s.q.mask = s.q.head
      · simp only [step, hpc, mpscPushStep, if_pos hf, claimed, seenAfter, List.append_nil,
          Option.some.injEq] at h
        subst h
        exact .full spurious hpc hf
      · simp only [step, hpc, mpscPushStep, if_neg hf, claimed, seenAfter, List.append_nil,
          Option.some.injEq] at h
        subst h
        exact .notFull spurious hpc hf
  | cas item t next =>
      by_cases hw : s.q.tail = t ∧ spurious = false
      · obtain ⟨ht, rfl⟩ := hw
        simp only [step, hpc, mpscPushStep, ht, and_self, if_true, claimed, pushWins, decide_true,
          Bool.not_false, Bool.and_self, seenAfter, Option.some.injEq] at h
        subst h
        exact .win hpc ht
      · have hl : pushWins spurious s.q (.cas item t next) = false := by
          cases spurious with
          | true => simp [pushWins]
          | false => simpa [pushWins] using hw
        simp only [step, hpc, mpscPushStep, if_neg hw, claimed, hl, seenAfter,
          Bool.false_eq_true, if_false, List.append_nil, Option.some.injEq] at h
        subst h
        exact .lose spurious hpc
  | write item t =>
      simp only [step, hpc, mpscPushStep, claimed, seenAfter, List.append_nil,
        Option.some.injEq] at h
      subst h
      exact .write spurious hpc

/-- **Every step is one of the listed ones.** -/
theorem steps_of_step {s s' : Sys ι α} {a : Act ι α} (h : step s a = some s') : Steps s a s' := by
  cases a with
  | call p item =>
      cases hpc : s.push p with
      | idle =>
          simp only [step, hpc, Option.some.injEq] at h
          subst h
          exact .call item hpc
      | loadTail item => simp [step, hpc] at h
      | loadHead item t => simp [step, hpc] at h
      | cas item t next => simp [step, hpc] at h
      | write item t => simp [step, hpc] at h
  | push p spurious => exact steps_of_push h
  | pop =>
      simp only [step, mpscPopStep, Option.some.injEq] at h
      subst h
      exact .pop (popSteps_ringPopStep s.q s.pop)

end Step

/-! ### What a claim must not do -/

/-- The step is a compare-and-swap that claims a slot. -/
def casWins (s : Sys ι α) : Act ι α → Bool
  | .push p spurious => pushWins spurious s.q (s.push p)
  | _ => false

/-- The ring is full, as the push tests it: the index after the tail is the head. -/
def isFull (s : Sys ι α) : Prop := (s.q.tail + 1) &&& s.q.mask = s.q.head

/-- A claim is made only while the ring is not full. -/
def ClaimsFreeSlot (s : Sys ι α) (a : Act ι α) : Prop := casWins s a = true → ¬ isFull s

/-- A claim does not make a nonempty queue look empty. -/
def KeepsNonempty [DecidableEq ι] (s : Sys ι α) (a : Act ι α) : Prop :=
  casWins s a = true → s.q.head ≠ s.q.tail → ∀ s', step s a = some s' → s'.q.head ≠ s'.q.tail

/-- At most all slots but one are claimed and not yet taken. -/
def WithinCapacity (N : Capacity) (s : Sys ι α) : Prop :=
  s.claims.length - s.popped.length ≤ N.slots - 1

/-- The claim of a step is lapped: slots have been claimed since the producer loaded the tail. -/
def lapped (s : Sys ι α) : Act ι α → Prop
  | .push p _ => s.seen p ≠ s.claims.length
  | _ => False

/-- No compare-and-swap wins on a full ring with a tail that is laps old. -/
def NoLappedClaim (s : Sys ι α) (a : Act ι α) : Prop :=
  casWins s a = true → lapped s a → ¬ isFull s

instance (s : Sys ι α) : Decidable (isFull s) :=
  inferInstanceAs (Decidable ((s.q.tail + 1) &&& s.q.mask = s.q.head))

instance (s : Sys ι α) (a : Act ι α) : Decidable (lapped s a) :=
  match a with
  | .call _ _ => inferInstanceAs (Decidable False)
  | .push p _ => inferInstanceAs (Decidable (s.seen p ≠ s.claims.length))
  | .pop => inferInstanceAs (Decidable False)

instance (s : Sys ι α) (a : Act ι α) : Decidable (NoLappedClaim s a) :=
  inferInstanceAs (Decidable (casWins s a = true → lapped s a → ¬ isFull s))

/-! ### The counting invariant -/

/-- What the counters say about where a producer stands that loaded the tail at count `c`: if no
slot has been claimed since, its full test is still good. -/
def PushCounted (n T H c : ℕ) : MpscPushPc α → Prop
  | .loadHead _ t => t = c % n ∧ c ≤ T
  | .cas _ t next =>
      t = c % n ∧ next = (c + 1) % n ∧ c ≤ T ∧ (c = T → T + 1 < H + n)
  | _ => True

/-- **The counting invariant**: the cursors are the counters modulo the number of slots, the ring
is not over-claimed, and every thread inside a call agrees with the counters. -/
structure Counted (N : Capacity) (s : Sys ι α) : Prop where
  ring : Counters N s.q s.claims.length s.popped.length
  pop : PopCounted s.q s.claims.length s.popped.length s.pop
  push : ∀ p, PushCounted N.slots s.claims.length s.popped.length (s.seen p) (s.push p)

theorem init_counted (N : Capacity) (memory : ℕ → α) :
    Counted N (init N memory : Sys ι α) where
  ring := queueInit_counters N memory
  pop := trivial
  push := fun _ => trivial

/-- A producer's knowledge survives further claims and pops: a claim since its load only makes
the remembered count stale, and a pop only makes room. -/
theorem PushCounted.mono {n T H c T' H' : ℕ} {pc : MpscPushPc α} (h : PushCounted n T H c pc)
    (hT : T ≤ T') (hH : H ≤ H') : PushCounted n T' H' c pc := by
  cases pc with
  | idle => trivial
  | loadTail item => trivial
  | loadHead item t => exact ⟨h.1, h.2.trans hT⟩
  | cas item t next =>
      obtain ⟨ht, hnext, hc, hroom⟩ := h
      refine ⟨ht, hnext, hc.trans hT, fun hcT => ?_⟩
      have hTc : c = T := by omega
      have := hroom hTc
      omega
  | write item t => trivial

/-- A winning compare-and-swap that is not lapped on a full ring finds a free slot: either nothing
was claimed since the tail was loaded, and then the full test still holds, or the guard says so. -/
theorem Counted.free_of_wins {N : Capacity} {s : Sys ι α} (h : Counted N s) {a : Act ι α}
    (hg : NoLappedClaim s a) (hw : casWins s a = true) :
    s.claims.length + 1 < s.popped.length + N.slots := by
  have hnotfull : ¬ isFull s → s.claims.length + 1 < s.popped.length + N.slots := by
    intro hf
    have := h.ring.room
    have := mt h.ring.full_iff.2 hf
    omega
  cases a with
  | call p item => simp [casWins] at hw
  | pop => simp [casWins] at hw
  | push p spurious =>
      by_cases hl : s.seen p = s.claims.length
      · have hp := h.push p
        cases hpc : s.push p with
        | cas item t next =>
            rw [hpc] at hp
            exact hp.2.2.2 hl
        | idle => simp [casWins, hpc, pushWins] at hw
        | loadTail item => simp [casWins, hpc, pushWins] at hw
        | loadHead item t => simp [casWins, hpc, pushWins] at hw
        | write item t => simp [casWins, hpc, pushWins] at hw
      · exact hnotfull (hg hw hl)

section Kept

variable [DecidableEq ι] {N : Capacity} {s s' : Sys ι α}

/-- A step of one producer that changes neither counter leaves the others' knowledge alone. -/
theorem pushCounted_update {f : ι → MpscPushPc α} {c : ι → ℕ} {T H : ℕ} {p : ι}
    {pc : MpscPushPc α} (h : ∀ r, PushCounted N.slots T H (c r) (f r))
    (hp : PushCounted N.slots T H (c p) pc) :
    ∀ r, PushCounted N.slots T H (c r) (Function.update f p pc r) :=
  (Function.forall_update_iff f fun r pc' => PushCounted N.slots T H (c r) pc').2
    ⟨hp, fun r _ => h r⟩

omit [DecidableEq ι] in
/-- The compare-and-swap moves the tail to the next counter: the index the producer remembers is
the current one, whatever the lap it comes from. -/
theorem Counted.next_of_win (h : Counted N s) {p : ι} {item : α} {t next : ℕ}
    (hpc : s.push p = .cas item t next) (ht : s.q.tail = t) :
    next = (s.claims.length + 1) % N.slots := by
  have hp := h.push p
  rw [hpc] at hp
  obtain ⟨hseen, hnext, -, -⟩ := hp
  rw [hnext, ← Nat.mod_add_mod, ← hseen, ← ht, h.ring.tail, Nat.mod_add_mod]

/-- **The counting invariant is kept** by every step that is not a lapped claim on a full ring. -/
theorem step_counted {a : Act ι α} (h : Counted N s) (hg : NoLappedClaim s a)
    (hstep : step s a = some s') : Counted N s' := by
  cases steps_of_step hstep with
  | call item hpc =>
      exact { h with push := pushCounted_update h.push trivial }
  | @loadTail p item spurious hpc =>
      refine { h with push := fun r => ?_ }
      by_cases hr : r = p
      · subst hr
        simp only [Function.update_self]
        exact ⟨h.ring.tail, le_rfl⟩
      · simp only [Function.update_of_ne hr]
        exact h.push r
  | full spurious hpc hf =>
      exact { h with push := pushCounted_update h.push trivial }
  | @notFull p item t spurious hpc hf =>
      refine { h with push := pushCounted_update h.push ?_ }
      have hp := h.push p
      rw [hpc] at hp
      obtain ⟨rfl, hc⟩ := hp
      refine ⟨rfl, by rw [h.ring.mask, N.next_index], hc, fun hcT => ?_⟩
      change s.seen p = s.claims.length at hcT
      change s.claims.length + 1 < s.popped.length + N.slots
      -- the test just made is the full test of the current counters
      rw [hcT, ← h.ring.tail] at hf
      have := mt h.ring.full_iff.2 hf
      have := h.ring.room
      omega
  | @win p item t next hpc ht =>
      have hwins : casWins s (.push p false) = true := by simp [casWins, hpc, pushWins, ht]
      have hfree := h.free_of_wins hg hwins
      have hlen : (s.claims ++ [item]).length = s.claims.length + 1 := by simp
      refine ⟨?_, ?_, ?_⟩
      · rw [hlen, h.next_of_win hpc ht]
        exact h.ring.put hfree
      · rw [hlen]
        exact h.pop.mono rfl (Nat.le_succ _)
      · rw [hlen]
        exact pushCounted_update (fun r => (h.push r).mono (Nat.le_succ _) le_rfl) trivial
  | lose spurious hpc =>
      exact { h with push := pushCounted_update h.push trivial }
  | write spurious hpc =>
      exact ⟨h.ring.setBuffer _, h.pop.mono rfl le_rfl, pushCounted_update h.push trivial⟩
  | @pop r hr =>
      obtain ⟨hring, hpop⟩ := h.ring.pop_step h.pop hr
      have hlen : (s.popped ++ returned r.2.2).length =
          s.popped.length + (returned r.2.2).length := List.length_append
      refine ⟨by rw [hlen]; exact hring, by rw [hlen]; exact hpop, fun p => ?_⟩
      rw [hlen]
      exact (h.push p).mono le_rfl (Nat.le_add_right _ _)

/-! ### The ring is never over-claimed -/

/-- A claim of a free slot leaves a nonempty queue nonempty: only a claim on a full ring can make
the cursors meet. -/
theorem Counted.keepsNonempty (h : Counted N s) {a : Act ι α} (hg : NoLappedClaim s a) :
    KeepsNonempty s a := by
  intro hw hne t hstep
  have hfree := h.free_of_wins hg hw
  cases steps_of_step hstep with
  | @win p item t next hpc ht =>
      have hput := h.ring.put hfree
      rw [← h.next_of_win hpc ht] at hput
      intro heq
      have := hput.empty_iff.1 heq
      have := h.ring.le
      omega
  | call item hpc => exact hne
  | loadTail spurious hpc => exact hne
  | full spurious hpc hf => exact hne
  | notFull spurious hpc hf => exact hne
  | lose spurious hpc => exact hne
  | write spurious hpc => exact hne
  | pop hr => simp [casWins] at hw

/-- Under the counting invariant, a claim takes a free slot and keeps a nonempty queue nonempty
exactly when it is not a lapped claim on a full ring. -/
theorem Counted.claim_ok_iff (h : Counted N s) (a : Act ι α) :
    (ClaimsFreeSlot s a ∧ KeepsNonempty s a) ↔ NoLappedClaim s a := by
  constructor
  · rintro ⟨hfree, -⟩ hw -
    exact hfree hw
  · intro hg
    refine ⟨fun hw hf => ?_, h.keepsNonempty hg⟩
    have := h.free_of_wins hg hw
    have := h.ring.full_iff.1 hf
    omega

/-- **A run never over-claims the ring exactly when none of its claims is a lapped one on a full
ring.**  On the left: every winning compare-and-swap finds the ring not full and does not make a
nonempty queue look empty, and in every state at most all slots but one are claimed and not yet
taken. -/
theorem never_overclaimed_iff (N : Capacity) (memory : ℕ → α) (as : List (Act ι α)) :
    (Along step (fun s a => ClaimsFreeSlot s a ∧ KeepsNonempty s a) (init N memory) as ∧
      Throughout step (WithinCapacity N) (init N memory) as) ↔
    Along step NoLappedClaim (init N memory) as := by
  have hkeep : ∀ (s : Sys ι α) (a : Act ι α) (s' : Sys ι α), Counted N s → NoLappedClaim s a →
      step s a = some s' → Counted N s' := fun s a s' => step_counted
  have hiff : Along step (fun s a => ClaimsFreeSlot s a ∧ KeepsNonempty s a) (init N memory) as ↔
      Along step NoLappedClaim (init N memory) as :=
    along_iff_of_invariant hkeep (fun s a hs => hs.claim_ok_iff a) (init_counted N memory)
  constructor
  · rintro ⟨hp, -⟩
    exact hiff.1 hp
  · intro hg
    refine ⟨hiff.2 hg, throughout_of_invariant hkeep (fun s hs => ?_) (init_counted N memory) hg⟩
    have := hs.ring.room
    have := N.slots_pos
    rw [WithinCapacity]
    omega

end Kept

/-- A producer (`false`) tests the empty two-slot ring and stalls before its compare-and-swap; the
other one (`true`) pushes, the consumer pops, and the other one pushes again, so that the tail is
back where the first producer saw it and the ring is full. -/
def lapRun : List (Act Bool ℕ) :=
  [.call false 1, .push false false, .push false false,
   .call true 2, .push true false, .push true false, .push true false, .push true false,
   .pop, .pop, .pop, .pop,
   .call true 3, .push true false, .push true false, .push true false, .push true false]

/-- The stalled producer then wins its compare-and-swap on the full ring, and the queue, which holds
an item, looks empty. -/
theorem lapped_claim_empties_full_ring :
    ∃ s s' : Sys Bool ℕ, run step (init ⟨1, le_rfl⟩ fun _ => 0) lapRun = some s ∧
      step s (.push false false) = some s' ∧ casWins s (.push false false) = true ∧ isFull s ∧
      s.q.head ≠ s.q.tail ∧ s'.q.head = s'.q.tail :=
  ⟨_, _, rfl, rfl, rfl, rfl, by decide, rfl⟩

end Mpsc
