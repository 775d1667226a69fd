/-
**The single-producer queue, shared by several producers.**

`BT_SPSC_PUSH` loads the head, loads the tail, writes the slot and stores the tail.  Nothing keeps a
second producer from doing the same in between: both then write one slot and both store one tail, or
one of them tests for a full ring against a head it loaded long ago.  This module interleaves any
number of producers and one consumer, and proves that the queue loses nothing as long as no tail is
stored while another producer is inside a push, which for a single producer is always the case.

Main definitions:

* `Spsc.Sys`, `Spsc.Act`, `Spsc.step`, `Spsc.init` — the machine;
* `Spsc.inside` — a push has loaded the head and not yet returned;
* `Spsc.ExclusiveStore` — no tail is stored while another push is inside;
* `Spsc.LosesNothing` — every pushed item is popped once, in order, and kept until then;
* `Spsc.Kept` — the invariant.

Main results:

* `Spsc.step_kept` — the invariant is kept;
* `Spsc.Kept.losesNothing` — what it says about the items;
* `Spsc.exclusiveStore_of_subsingleton` — a single producer needs no condition.
-/

import AspiraBroker.LockfreeQueue
import AspiraBroker.TransitionRuns
import Mathlib.Data.Fintype.Basic

set_option relaxedAutoImplicit false
set_option autoImplicit false

namespace Spsc

open LockfreeQueue Ring Transition

universe u v

variable {ι : Type v} {α : Type u}

/-! ### The machine -/

/-- The queue, where each producer and the consumer stand, and the history: the items of the pushes
that returned `1`, each with its producer, in the order of their tail stores, and the items returned
by successful pops. -/
structure Sys (ι : Type v) (α : Type u) where
  q : Queue α
  push : ι → SpscPushPc α
  pop : PopPc α
  pushed : List (ι × α)
  popped : List α

/-- A producer calls push, a producer takes a step of its push, the consumer takes a step of its
pop. -/
inductive Act (ι : Type v) (α : Type u)
  | call (p : ι) (item : α)
  | push (p : ι)
  | pop

/-- A freshly initialised queue with nobody inside a call. -/
def init (N : Capacity) (memory : ℕ → α) : Sys ι α where
  q := queueInit N memory
  push := fun _ => .idle
  pop := .loadHead
  pushed := []
  popped := []

/-- One step of the machine. -/
def step [DecidableEq ι] (s : Sys ι α) : Act ι α → Option (Sys ι α)
  | .call p item =>
      match s.push p with
      | .idle => some { s with push := Function.update s.push p (.loadHead item) }
      | _ => none
  | .push p =>
      match s.push p with
      | .idle => none
      | pc =>
          let r := spscPushStep s.q pc
          some { s with
            q := r.1
            push := Function.update s.push p r.2.1
            pushed := s.pushed ++ (returned r.2.2).map fun item => (p, item) }
  | .pop =>
      let r := spscPopStep s.q s.pop
      some { s with q := r.1, pop := r.2.1, popped := s.popped ++ returned r.2.2 }

/-- The pushed items, without their producers. -/
def Sys.items (s : Sys ι α) : List α := s.pushed.map Prod.snd

@[simp] theorem length_items (s : Sys ι α) : s.items.length = s.pushed.length := by
  simp [Sys.items]

/-- Everything a step can do, one constructor for each atomic step of a push. -/
inductive Steps [DecidableEq ι] (s : Sys ι α) : Act ι α → Sys ι α → Prop
  | call {p : ι} (item : α) : s.push p = .idle →
      Steps s (.call p item) { s with push := Function.update s.push p (.loadHead item) }
  | loadHead {p : ι} {item : α} : s.push p = .loadHead item →
      Steps s (.push p) { s with push := Function.update s.push p (.loadTail item s.q.head) }
  | full {p : ι} {item : α} {h : ℕ} : s.push p = .loadTail item h →
      (s.q.tail + 1) &&& s.q.mask = h →
      Steps s (.push p) { s with push := Function.update s.push p .idle }
  | notFull {p : ι} {item : α} {h : ℕ} : s.push p = .loadTail item h →
      (s.q.tail + 1) &&& s.q.mask ≠ h →
      Steps s (.push p)
        { s with push := Function.update s.push p
                          (.write item s.q.tail ((s.q.tail + 1) &&& s.q.mask)) }
  | write {p : ι} {item : α} {t next : ℕ} : s.push p = .write item t next →
      Steps s (.push p)
        { s with q := { s.q with buffer := Function.update s.q.buffer t item }
                 push := Function.update s.push p (.store item next) }
  | store {p : ι} {item : α} {next : ℕ} : s.push p = .store item next →
      Steps s (.push p)
        { s with q := { s.q with tail := next }
                 push := Function.update s.push p .idle
                 pushed := s.pushed ++ [(p, item)] }
  | pop {r : Queue α × PopPc α × Outcome α} : PopSteps s.q s.pop r →
      Steps s .pop { s with q := r.1, pop := r.2.1, popped := s.popped ++ returned r.2.2 }

/-- **Every step is one of the listed ones.** -/
theorem steps_of_step [DecidableEq ι] {s s' : Sys ι α} {a : Act ι α} (h : step s a = some s') :
    Steps s a s' := by
  cases a with
  | call p item =>
      cases hpc : s.push p with
      | idle =>
          simp only [step, hpc, Option.some.injEq] at h
          subst h
          exact .call item hpc
      | loadHead item => simp [step, hpc] at h
      | loadTail item hd => simp [step, hpc] at h
      | write item t next => simp [step, hpc] at h
      | store item next => simp [step, hpc] at h
  | push p =>
      cases hpc : s.push p with
      | idle => simp [step, hpc] at h
      | loadHead item =>
          simp only [step, hpc, spscPushStep, returned, List.map_nil, List.append_nil,
            Option.some.injEq] at h
          subst h
          exact .loadHead hpc
      | loadTail item hd =>
          by_cases hf : (s.q.tail + 1) &&& s.q.mask = hd
          · simp only [step, hpc, spscPushStep, hf, ne_eq, not_true_eq_false, if_false, returned,
              List.map_nil, List.append_nil, Option.some.injEq] at h
            subst h
            exact .full hpc hf
          · simp only [step, hpc, spscPushStep, ne_eq, hf, not_false_eq_true, if_true, returned,
              List.map_nil, List.append_nil, Option.some.injEq] at h
            subst h
            exact .notFull hpc hf
      | write item t next =>
          simp only [step, hpc, spscPushStep, returned, List.map_nil, List.append_nil,
            Option.some.injEq] at h
          subst h
          exact .write hpc
      | store item next =>
          simp only [step, hpc, spscPushStep, returned, List.map_cons, List.map_nil,
            Option.some.injEq] at h
          subst h
          exact .store hpc
  | pop =>
      simp only [step, spscPopStep, Option.some.injEq] at h
      subst h
      exact .pop (popSteps_ringPopStep s.q s.pop)

/-- Only the consumer pops. -/
theorem popped_call [DecidableEq ι] {s s' : Sys ι α} {p : ι} {item : α}
    (h : step s (.call p item) = some s') : s'.popped = s.popped := by
  cases steps_of_step h with
  | call item hpc => rfl

theorem popped_push [DecidableEq ι] {s s' : Sys ι α} {p : ι} (h : step s (.push p) = some s') :
    s'.popped = s.popped := by
  cases steps_of_step h with
  | loadHead hpc => rfl
  | full hpc hf => rfl
  | notFull hpc hf => rfl
  | write hpc => rfl
  | store hpc => rfl

/-- The consumer moves no push. -/
theorem push_pop [DecidableEq ι] {s s' : Sys ι α} (h : step s .pop = some s') :
    s'.push = s.push := by
  cases steps_of_step h with
  | pop hr => rfl

theorem pushed_pop [DecidableEq ι] {s s' : Sys ι α} (h : step s .pop = some s') :
    s'.pushed = s.pushed := by
  cases steps_of_step h with
  | pop hr => rfl

/-- The push has written its slot and not yet stored the tail. -/
def storing : SpscPushPc α → Bool
  | .store _ _ => true
  | _ => false

/-- A step of a push adds its item exactly when it stores the tail. -/
theorem pushed_push [DecidableEq ι] {s s' : Sys ι α} {p : ι} (h : step s (.push p) = some s') :
    (storing (s.push p) = false ∧ s'.pushed = s.pushed) ∨
      (storing (s.push p) = true ∧ s'.pushed ≠ []) := by
  cases steps_of_step h with
  | loadHead hpc => exact Or.inl ⟨by rw [hpc]; rfl, rfl⟩
  | full hpc hf => exact Or.inl ⟨by rw [hpc]; rfl, rfl⟩
  | notFull hpc hf => exact Or.inl ⟨by rw [hpc]; rfl, rfl⟩
  | write hpc => exact Or.inl ⟨by rw [hpc]; rfl, rfl⟩
  | store hpc => exact Or.inr ⟨by rw [hpc]; rfl, by simp⟩

theorem pushed_call [DecidableEq ι] {s s' : Sys ι α} {p : ι} {item : α}
    (h : step s (.call p item) = some s') : s'.pushed = s.pushed := by
  cases steps_of_step h with
  | call item hpc => rfl

/-- The producer is in a call of push. -/
def calling : SpscPushPc α → Bool
  | .idle => false
  | _ => true

theorem calling_of_push [DecidableEq ι] {s s' : Sys ι α} {p : ι}
    (h : step s (.push p) = some s') : calling (s.push p) = true := by
  cases hpc : s.push p with
  | idle => simp [step, hpc] at h
  | loadHead item => rfl
  | loadTail item hd => rfl
  | write item t next => rfl
  | store item next => rfl

/-! ### What the queue must not do, and when it does not -/

/-- The push has loaded the head and not yet returned. -/
def inside : SpscPushPc α → Bool
  | .idle => false
  | .loadHead _ => false
  | .loadTail _ _ => true
  | .write _ _ _ => true
  | .store _ _ => true

/-- No tail is stored while another push is inside. -/
def ExclusiveStore (s : Sys ι α) : Act ι α → Prop
  | .push p =>
      match s.push p with
      | .store _ _ => ∀ r, r ≠ p → inside (s.push r) = false
      | _ => True
  | _ => True

instance [DecidableEq ι] [Fintype ι] (s : Sys ι α) (a : Act ι α) :
    Decidable (ExclusiveStore s a) := by
  unfold ExclusiveStore
  split
  · split <;> infer_instance
  · infer_instance

/-- A single producer never stores the tail while another push is inside. -/
theorem exclusiveStore_of_subsingleton [Subsingleton ι] (s : Sys ι α) (a : Act ι α) :
    ExclusiveStore s a := by
  cases a with
  | call p item => trivial
  | pop => trivial
  | push p =>
      rw [ExclusiveStore]
      split
      · exact fun r hr => absurd (Subsingleton.elim r p) hr
      · trivial

/-- Every item whose push returned `1` is popped at most once, in the order of the pushes, and stays
in its slot until it is. -/
def LosesNothing (N : Capacity) (s : Sys ι α) : Prop :=
  s.popped <+: s.items ∧
    ∀ k, s.popped.length ≤ k → k < s.pushed.length → Stored N.slots s.q.buffer s.items k

/-! ### The invariant -/

/-- What the counters say about where a push stands.  The head it loaded is at most as old as the
last tail store, so its full test holds of the current tail. -/
def PushCounted (n T H : ℕ) : SpscPushPc α → Prop
  | .loadTail _ h => ∃ H₀, H₀ ≤ H ∧ T < H₀ + n ∧ H₀ ≤ T ∧ h = H₀ % n
  | .write _ t next => t = T % n ∧ next = (T + 1) % n ∧ T + 1 < H + n
  | .store _ next => next = (T + 1) % n ∧ T + 1 < H + n
  | _ => True

/-- **The invariant**: the counters agree, the items not yet popped are in their slots, the pops
have returned the first of the items, and a push that has written the free slot finds its item
there unless another push has written it too. -/
structure Kept (N : Capacity) (s : Sys ι α) : Prop where
  ring : Counters N s.q s.pushed.length s.popped.length
  pop : PopCounted s.q s.pushed.length s.popped.length s.pop
  push : ∀ p, PushCounted N.slots s.pushed.length s.popped.length (s.push p)
  filled : ∀ k, s.popped.length ≤ k → k < s.pushed.length → Stored N.slots s.q.buffer s.items k
  written : ∀ p item next, s.push p = .store item next →
    s.q.buffer (s.pushed.length % N.slots) = item ∨ ∃ r, r ≠ p ∧ storing (s.push r) = true
  order : s.popped <+: s.items
  holds : PopHolds s.items s.popped.length s.pop

theorem init_kept (N : Capacity) (memory : ℕ → α) : Kept N (init N memory : Sys ι α) where
  ring := queueInit_counters N memory
  pop := trivial
  push := fun _ => trivial
  filled := by intro k _ hk; simp [init] at hk
  written := by intro p item next hp; simp [init] at hp
  order := List.prefix_rfl
  holds := trivial

theorem Kept.losesNothing {N : Capacity} {s : Sys ι α} (h : Kept N s) : LosesNothing N s :=
  ⟨h.order, h.filled⟩

/-- A push's knowledge survives a pop, which only makes room. -/
theorem PushCounted.mono {n T H H' : ℕ} {pc : SpscPushPc α} (h : PushCounted n T H pc)
    (hH : H ≤ H') : PushCounted n T H' pc := by
  cases pc with
  | idle => trivial
  | loadHead item => trivial
  | loadTail item hd =>
      obtain ⟨H₀, hle, hroom, hT, rfl⟩ := h
      exact ⟨H₀, hle.trans hH, hroom, hT, rfl⟩
  | write item t next =>
      obtain ⟨ht, hnext, hfree⟩ := h
      exact ⟨ht, hnext, by omega⟩
  | store item next =>
      obtain ⟨hnext, hfree⟩ := h
      exact ⟨hnext, by omega⟩

theorem pushCounted_of_not_inside {n T H : ℕ} {pc : SpscPushPc α} (h : inside pc = false) :
    PushCounted n T H pc := by
  cases pc with
  | idle => trivial
  | loadHead item => trivial
  | loadTail item hd => simp [inside] at h
  | write item t next => simp [inside] at h
  | store item next => simp [inside] at h

theorem inside_of_storing {pc : SpscPushPc α} (h : storing pc = true) : inside pc = true := by
  cases pc with
  | store item next => rfl
  | idle => simp [storing] at h
  | loadHead item => simp [storing] at h
  | loadTail item hd => simp [storing] at h
  | write item t next => simp [storing] at h

section Step

variable [DecidableEq ι] {N : Capacity} {s s' : Sys ι α}

/-- A step of a push that touches neither the slots nor the tail keeps the invariant. -/
theorem Kept.push_move (h : Kept N s) {p : ι} {pc : SpscPushPc α}
    (hold : storing (s.push p) = false) (hnew : storing pc = false)
    (hc : PushCounted N.slots s.pushed.length s.popped.length pc) :
    Kept N { s with push := Function.update s.push p pc } := by
  refine { h with push := fun r => ?_, written := fun r item next hr => ?_ }
  · by_cases hrp : r = p
    · subst hrp
      simpa using hc
    · simpa [Function.update_of_ne hrp] using h.push r
  · have hrp : r ≠ p := by
      rintro rfl
      have hr' : pc = .store item next := by simpa using hr
      simp [hr', storing] at hnew
    have hr' : s.push r = .store item next := by simpa [Function.update_of_ne hrp] using hr
    rcases h.written r item next hr' with hw | ⟨r₀, hne, hst⟩
    · exact Or.inl hw
    · have hr₀ : r₀ ≠ p := by
        rintro rfl
        rw [hold] at hst
        cases hst
      exact Or.inr ⟨r₀, hne, by simpa [Function.update_of_ne hr₀] using hst⟩

omit [DecidableEq ι] in
/-- The full test of a push holds of the current tail, because no tail was stored since it loaded
the head. -/
theorem Kept.free_of_notFull (h : Kept N s) {p : ι} {item : α} {hd : ℕ}
    (hpc : s.push p = .loadTail item hd) (hf : (s.q.tail + 1) &&& s.q.mask ≠ hd) :
    s.pushed.length + 1 < s.popped.length + N.slots := by
  have hp := h.push p
  rw [hpc] at hp
  obtain ⟨H₀, hle, hroom, hT, rfl⟩ := hp
  rw [h.ring.tail, h.ring.mask, N.next_index] at hf
  have := mt (N.next_eq_iff_full hT hroom).2 hf
  omega

/-- The write goes to the free slot at the tail, which holds no item. -/
theorem Kept.write (h : Kept N s) {p : ι} {item : α} {t next : ℕ}
    (hpc : s.push p = .write item t next) :
    Kept N { s with q := { s.q with buffer := Function.update s.q.buffer t item }
                    push := Function.update s.push p (.store item next) } := by
  have hp := h.push p
  rw [hpc] at hp
  obtain ⟨rfl, hnext, hfree⟩ := hp
  refine ⟨h.ring.setBuffer _, h.pop.mono rfl le_rfl, fun r => ?_, fun k hlo hk => ?_,
    fun r y next' hr => ?_, h.order, h.holds⟩
  · by_cases hrp : r = p
    · subst hrp
      simpa using ⟨hnext, hfree⟩
    · simpa [Function.update_of_ne hrp] using h.push r
  · change s.popped.length ≤ k at hlo
    change k < s.pushed.length at hk
    refine (h.filled k hlo hk).update_of_ne (fun heq => ?_) item
    have := index_inj hk.le (by omega) heq
    omega
  · by_cases hrp : r = p
    · subst hrp
      obtain ⟨rfl, -⟩ : item = y ∧ next = next' := by simpa using hr
      exact Or.inl (by simp)
    · -- `p` has now written the same slot
      exact Or.inr ⟨p, fun hpr => hrp hpr.symm, by simp [storing]⟩

/-- The store publishes the item in the slot, which nobody else has written. -/
theorem Kept.store (h : Kept N s) {p : ι} {item : α} {next : ℕ}
    (hpc : s.push p = .store item next) (halone : ∀ r, r ≠ p → inside (s.push r) = false) :
    Kept N { s with q := { s.q with tail := next }
                    push := Function.update s.push p .idle
                    pushed := s.pushed ++ [(p, item)] } := by
  have hp := h.push p
  rw [hpc] at hp
  obtain ⟨rfl, hfree⟩ := hp
  have hslot : s.q.buffer (s.pushed.length % N.slots) = item := by
    rcases h.written p item _ hpc with hw | ⟨r, hne, hst⟩
    · exact hw
    · have hin := inside_of_storing hst
      rw [halone r hne] at hin
      cases hin
  have hlen : (s.pushed ++ [(p, item)]).length = s.pushed.length + 1 := by simp
  have hitems : (s.pushed ++ [(p, item)]).map Prod.snd = s.items ++ [item] := by
    simp [Sys.items]
  have hidle : ∀ r, inside (Function.update s.push p .idle r) = false := by
    intro r
    by_cases hrp : r = p
    · subst hrp
      simp [inside]
    · rw [Function.update_of_ne hrp]
      exact halone r hrp
  refine ⟨?_, ?_, fun r => pushCounted_of_not_inside (hidle r), fun k hlo hk => ?_,
    fun r y next' hr => ?_, ?_, ?_⟩
  · rw [hlen]
    exact h.ring.put hfree
  · rw [hlen]
    exact h.pop.mono rfl (Nat.le_succ _)
  · change Stored N.slots s.q.buffer ((s.pushed ++ [(p, item)]).map Prod.snd) k
    rw [hitems]
    rw [hlen] at hk
    rcases Nat.lt_succ_iff_lt_or_eq.1 hk with hk | rfl
    · exact (h.filled k hlo hk).append [item]
    · rw [Stored, hslot, ← length_items, List.getElem?_concat_length]
  · have hin := hidle r
    have hr' : Function.update s.push p .idle r = .store y next' := hr
    rw [hr', inside] at hin
    cases hin
  · change s.popped <+: (s.pushed ++ [(p, item)]).map Prod.snd
    rw [hitems]
    exact h.order.trans (List.prefix_append _ _)
  · change PopHolds ((s.pushed ++ [(p, item)]).map Prod.snd) s.popped.length s.pop
    rw [hitems]
    exact h.holds.append [item]

omit [DecidableEq ι] in
/-- A pop reads the slot of the first item that has not been popped, which holds it. -/
theorem Kept.pop_step (h : Kept N s) {r : Queue α × PopPc α × Outcome α}
    (hr : PopSteps s.q s.pop r) :
    Kept N { s with q := r.1, pop := r.2.1, popped := s.popped ++ returned r.2.2 } := by
  have hread : ∀ hd, s.pop = .read hd → Stored N.slots s.q.buffer s.items s.popped.length := by
    intro hd hpc
    have hpop := h.pop
    rw [hpc] at hpop
    exact h.filled _ le_rfl hpop.2
  obtain ⟨hring, hpop⟩ := h.ring.pop_step h.pop hr
  obtain ⟨hholds, horder⟩ := h.holds.pop_step h.ring h.pop h.order hread hr
  have hlen : (s.popped ++ returned r.2.2).length =
      s.popped.length + (returned r.2.2).length := List.length_append
  refine ⟨by rw [hlen]; exact hring, by rw [hlen]; exact hpop, fun p => ?_, fun k hlo hk => ?_,
    fun p item next hp => ?_, horder, hholds⟩
  · rw [hlen]
    exact (h.push p).mono (Nat.le_add_right _ _)
  · rw [hr.buffer_eq]
    exact h.filled k (by rw [hlen] at hlo; omega) hk
  · rw [hr.buffer_eq]
    exact h.written p item next hp

/-- **The invariant is kept** by every step that does not store the tail while another push is
inside. -/
theorem step_kept {a : Act ι α} (h : Kept N s) (hg : ExclusiveStore s a)
    (hstep : step s a = some s') : Kept N s' := by
  cases steps_of_step hstep with
  | call item hpc => exact h.push_move (by rw [hpc]; rfl) rfl trivial
  | loadHead hpc =>
      refine h.push_move (by rw [hpc]; rfl) rfl ?_
      exact ⟨s.popped.length, le_rfl, h.ring.room, h.ring.le, h.ring.head⟩
  | full hpc hf => exact h.push_move (by rw [hpc]; rfl) rfl trivial
  | notFull hpc hf =>
      refine h.push_move (by rw [hpc]; rfl) rfl ⟨h.ring.tail, ?_, h.free_of_notFull hpc hf⟩
      rw [h.ring.tail, h.ring.mask, N.next_index]
  | write hpc => exact h.write hpc
  | store hpc =>
      refine h.store hpc ?_
      simpa only [ExclusiveStore, hpc] using hg
  | pop hr => exact h.pop_step hr

end Step

end Spsc
