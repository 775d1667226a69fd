/-
**Calls on the lock-free stack that go on after their swap.**

A pop or push whose swap has succeeded often has something left to do before it returns, such as to
count itself.  Here that is a little program of atomic steps on a state which all threads share; the
other threads may do anything between two of its steps.  A thread that is in no call may also pass a
node on to another thread, which may then push it.

What is known of the stack stays true: the nodes have one owner as long as every pop is fresh, and
the threads make progress.  A number that the programs add to and subtract from is tied to the
number of nodes in the hands of the threads: in every state they differ by what the programs in
progress have yet to do.

Main definitions:

* `TreiberStack.Epilogue` — what a call does after its swap;
* `TreiberStack.Shared`, `TreiberStack.Epilogue.step` — the threads, and their steps;
* `TreiberStack.outstanding` — the number of nodes in the hands of the threads;
* `TreiberStack.Epilogue.Books` — the shared number agrees with the number of outstanding nodes;
* `TreiberStack.Quiet`, `TreiberStack.Busy` — no thread, or a given one, is inside of a call;
* `TreiberStack.Epilogue.Ends` — the programs end after a bounded number of steps.

Main results:

* `TreiberStack.Epilogue.inv_step` — **every node keeps one owner**, passing on included;
* `TreiberStack.Epilogue.books_step` — **the number agrees with the outstanding nodes**;
* `TreiberStack.Epilogue.exists_go` — **a thread inside of a call can take its next step**;
* `TreiberStack.Epilogue.steps_add_effort` — **`n` threads take at most `3 * n + m` steps for each
  call**, if the programs have up to `m` steps.
-/

import AspiraBroker.TreiberProgress
import Mathlib.Data.Fintype.BigOperators
import Mathlib.Data.Int.ModEq
import Mathlib.Data.Set.Card
import Mathlib.Tactic.Ring

set_option relaxedAutoImplicit false
set_option autoImplicit false

namespace TreiberStack

open LinkedChain Transition

universe u v w x

/-! ### The machine -/

/-- What a call does after its swap has succeeded: a pop, and a push of so many nodes, start a
program; `tick` is one step of it. -/
structure Epilogue (ρ : Type w) (γ : Type x) where
  afterPop : ρ
  afterPush : ℕ → ρ
  tick : ρ → γ → Option ρ × γ

/-- The stack and its threads, the programs that are in progress, and the state they share. -/
structure Shared (κ : Type v) (α : Type u) (ρ : Type w) (γ : Type x) where
  stack : Sys κ α
  post : κ → Option ρ
  state : γ

/-- What may happen: an act, which may be a step of a program, or a node is passed on. -/
inductive Deed (κ : Type v) (α : Type u)
  | act (a : Act κ α)
  | pass (k j : κ) (a : α)

section Machine

variable {κ : Type v} {α : Type u} {ρ : Type w} {γ : Type x} [DecidableEq κ] [DecidableEq α]

/-- The thread `k` passes the node `a` on to `j`. -/
def Sys.pass (s : Sys κ α) (k j : κ) (a : α) : Sys κ α :=
  { s with
    holds := Function.update (Function.update s.holds k ((s.holds k).erase a)) j (a :: s.holds j) }

namespace Epilogue

/-- The program that the act starts. -/
def begun (E : Epilogue ρ γ) (s : Sys κ α) : Act κ α → Option ρ
  | .go k =>
      match s.pc k with
      | .popSwap h _ => if s.head = some h then some E.afterPop else none
      | .pushSwap b h => if s.head = h then some (E.afterPush b.nodes.length) else none
      | .idle | .popLoad | .popRead _ | .pushLink _ _ _ _ | .pushLoad _ | .pushWrite _ _ => none
  | .alloc _ | .free _ _ | .write _ _ _ => none

/-- One step.  A thread that has a program left does not return before it has run it. -/
def step (E : Epilogue ρ γ) (reload : Bool) (σ : Shared κ α ρ γ) :
    Deed κ α → Option (Shared κ α ρ γ)
  | .act a =>
      match σ.post a.thread with
      | none =>
          (TreiberStack.step reload σ.stack a).map fun s =>
            ⟨s, Function.update σ.post a.thread (E.begun σ.stack a), σ.state⟩
      | some r =>
          match a with
          | .go k =>
              some ⟨σ.stack, Function.update σ.post k (E.tick r σ.state).1, (E.tick r σ.state).2⟩
          | .alloc _ | .free _ _ | .write _ _ _ => none
  | .pass k j a =>
      if k ≠ j ∧ σ.post k = none ∧ σ.stack.pc k = .idle ∧ a ∈ σ.stack.holds k then
        some { σ with stack := σ.stack.pass k j a }
      else none

/-- The deed is not a pop that succeeds with a link that is out of date. -/
def Fresh (σ : Shared κ α ρ γ) : Deed κ α → Prop
  | .act a => σ.post a.thread = none → TreiberStack.Fresh σ.stack a
  | .pass _ _ _ => True

instance [DecidableEq ρ] (σ : Shared κ α ρ γ) : ∀ d : Deed κ α, Decidable (Fresh σ d)
  | .act a =>
      inferInstanceAs (Decidable (σ.post a.thread = none → TreiberStack.Fresh σ.stack a))
  | .pass _ _ _ => isTrue trivial

/-- What a step can do. -/
inductive Does (E : Epilogue ρ γ) (reload : Bool) (σ : Shared κ α ρ γ) :
    Deed κ α → Shared κ α ρ γ → Prop
  | act (a : Act κ α) (s : Sys κ α) (hpost : σ.post a.thread = none)
      (hstep : TreiberStack.step reload σ.stack a = some s) :
      Does E reload σ (.act a)
        ⟨s, Function.update σ.post a.thread (E.begun σ.stack a), σ.state⟩
  | tick (k : κ) (r : ρ) (hpost : σ.post k = some r) :
      Does E reload σ (.act (.go k))
        ⟨σ.stack, Function.update σ.post k (E.tick r σ.state).1, (E.tick r σ.state).2⟩
  | pass (k j : κ) (a : α) (hne : k ≠ j) (hidle : σ.stack.pc k = .idle)
      (ha : a ∈ σ.stack.holds k) :
      Does E reload σ (.pass k j a) { σ with stack := σ.stack.pass k j a }

theorem does_of_step {E : Epilogue ρ γ} {reload : Bool} {σ σ' : Shared κ α ρ γ} {d : Deed κ α}
    (h : E.step reload σ d = some σ') : Does E reload σ d σ' := by
  cases d with
  | act a =>
      unfold step at h
      cases hpost : σ.post a.thread with
      | none =>
          simp only [hpost, Option.map_eq_some_iff] at h
          obtain ⟨s, hs, rfl⟩ := h
          exact .act a s hpost hs
      | some r =>
          simp only [hpost] at h
          cases a with
          | go k => exact Option.some.inj h ▸ .tick k r hpost
          | alloc k | free k b | write k a w => cases h
  | pass k j a =>
      simp only [step, Option.ite_none_right_eq_some, Option.some.injEq] at h
      obtain ⟨⟨hne, -, hidle, ha⟩, rfl⟩ := h
      exact .pass k j a hne hidle ha

end Epilogue

end Machine

/-! ### Owners -/

section Owners

variable {κ : Type v} {α : Type u} [DecidableEq κ] [DecidableEq α] {B : Set α} {s : Sys κ α}
variable {k j : κ} {a : α}

@[simp] theorem pass_holds_self (hne : k ≠ j) :
    (s.pass k j a).holds k = (s.holds k).erase a := by
  simp [Sys.pass, Function.update_of_ne hne]

@[simp] theorem pass_holds_other : (s.pass k j a).holds j = a :: s.holds j := by
  simp [Sys.pass]

theorem pass_holds_of_ne {i : κ} (hk : i ≠ k) (hj : i ≠ j) :
    (s.pass k j a).holds i = s.holds i := by
  simp [Sys.pass, Function.update_of_ne hk, Function.update_of_ne hj]

/-- A node that is passed on has one owner before and after. -/
theorem Inv.pass (h : Inv B s) (hne : k ≠ j) (ha : a ∈ s.holds k) : Inv B (s.pass k j a) := by
  refine ⟨?_, h.ready⟩
  obtain ⟨l, hchain, hown⟩ := h.sound
  refine ⟨l, hchain, ?_⟩
  refine hown.move (some k) (some j) [a] (fun heq => hne (Option.some.inj heq)) ?_ ?_ ?_
  · have hperm := (List.perm_cons_erase ha).append_right (s.pc k).pushed
    change (s.holds k ++ (s.pc k).pushed).Perm ([a] ++ ((s.pass k j a).holds k ++ (s.pc k).pushed))
    rw [pass_holds_self hne]
    exact hperm
  · simp [Sys.places, Sys.owned, Sys.pass]
  · intro o hk hj
    cases o with
    | none => rfl
    | some i =>
        have hik : i ≠ k := fun heq => hk (congrArg some heq)
        have hij : i ≠ j := fun heq => hj (congrArg some heq)
        simp only [Sys.places, Sys.owned, pass_holds_of_ne hik hij]
        rfl

variable {ρ : Type w} {γ : Type x} {E : Epilogue ρ γ} {reload : Bool} {σ σ' : Shared κ α ρ γ}

/-- **Every node keeps one owner**, as long as every pop is fresh. -/
theorem Epilogue.inv_step {d : Deed κ α} (h : Inv B σ.stack) (hfresh : Fresh σ d)
    (hstep : E.step reload σ d = some σ') : Inv B σ'.stack := by
  cases does_of_step hstep with
  | act a s hpost hs => exact h.step (hfresh hpost) hs
  | tick k r hpost => exact h
  | pass k j a hne hidle ha => exact h.pass hne ha

end Owners

/-! ### The nodes in the hands of the threads -/

section Books

variable {κ : Type v} {α : Type u} {s s' : Sys κ α}

/-- The number of nodes that the threads hold or are in the course of pushing. -/
def outstanding [Fintype κ] (s : Sys κ α) : ℕ := ∑ k, (s.owned k).length

theorem outstanding_congr [Fintype κ] (h : ∀ k, (s'.owned k).length = (s.owned k).length) :
    outstanding s' = outstanding s :=
  Finset.sum_congr rfl fun k _ => h k

variable [DecidableEq κ]

theorem outstanding_take [Fintype κ] {k : κ} {h : α} {n m : Option α}
    (hpc : s.pc k = .popSwap h n) :
    outstanding (s.take k h m) = outstanding s + 1 := by
  have hsum := sum_add_eq_of_others (f := fun j => (s.owned j).length)
    (g := fun j => ((s.take k h m).owned j).length) (k := k) fun j hj => by
      simp [Sys.owned, Sys.take, Sys.goto, Function.update_of_ne hj]
  have hk : ((s.take k h m).owned k).length = (s.owned k).length + 1 := by
    simp [Sys.owned, Sys.take, Sys.goto, hpc, Pc.pushed]
  rw [outstanding, outstanding]
  omega

theorem outstanding_give [Fintype κ] {k : κ} {b : Batch α} {w : Option α}
    (hpc : s.pc k = .pushSwap b w) :
    outstanding (s.give k b) + b.nodes.length = outstanding s := by
  have hsum := sum_add_eq_of_others (f := fun j => (s.owned j).length)
    (g := fun j => ((s.give k b).owned j).length) (k := k) fun j hj => by
      simp [Sys.owned, Sys.give, Sys.goto, Function.update_of_ne hj]
  have hk : ((s.give k b).owned k).length + b.nodes.length = (s.owned k).length := by
    simp [Sys.owned, Sys.give, Sys.goto, hpc, Pc.pushed]
  rw [outstanding, outstanding]
  omega

variable [DecidableEq α] {reload : Bool}

/-- What a step does to the hands of the threads: a thread gets a node, or gives its batch, or
nothing is given or taken. -/
inductive Trades (s : Sys κ α) : Act κ α → Sys κ α → Prop
  | pop (k : κ) (h : α) (n : Option α) (hpc : s.pc k = .popSwap h n) (hhead : s.head = some h) :
      Trades s (.go k) (s.take k h n)
  | push (k : κ) (b : Batch α) (hpc : s.pc k = .pushSwap b s.head) : Trades s (.go k) (s.give k b)
  | none {act : Act κ α} {s' : Sys κ α} (hcompletes : completes s act = 0)
      (howned : ∀ k, (s'.owned k).length = (s.owned k).length) : Trades s act s'

theorem trades_of_step {act : Act κ α} (h : step reload s act = some s') : Trades s act s' := by
  cases act with
  | alloc k =>
      simp only [step, Option.ite_none_right_eq_some, Option.some.injEq] at h
      obtain ⟨hpc, rfl⟩ := h
      refine .none rfl fun j => congrArg List.length (owned_goto ?_ j)
      rw [hpc]
      rfl
  | free k b =>
      simp only [step, Option.ite_none_right_eq_some, Option.some.injEq] at h
      obtain ⟨⟨hpc, hnodup, hheld⟩, rfl⟩ := h
      refine .none rfl fun j => ?_
      rcases eq_or_ne j k with rfl | hj
      · have hperm : (b.nodes ++ (s.holds j).diff b.nodes).Perm (s.holds j) :=
          List.subperm_append_diff_self_of_count_le fun c hc => by
            rw [List.count_eq_one_of_mem hnodup hc]
            exact List.count_pos_iff.2 (hheld hc)
        have hlength := hperm.length_eq
        simp only [List.length_append] at hlength
        have hnone : (s.pc j).pushed = [] := by rw [hpc]; rfl
        simp only [Sys.owned, Sys.enter, Sys.goto, Function.update_self, List.length_append,
          linkFrom_pushed, hnone, List.length_nil]
        omega
      · simp [Sys.owned, Sys.enter, Sys.goto, Function.update_of_ne hj]
  | write k a w =>
      simp only [step, Option.ite_none_right_eq_some, Option.some.injEq] at h
      obtain ⟨-, rfl⟩ := h
      exact .none rfl fun _ => rfl
  | go k =>
      -- a swap that succeeds is one of the first two cases, and everything else keeps the hands
      by_cases hswap : (s.pc k).expects = some s.head
      · cases hpc : s.pc k with
        | popSwap h₀ n =>
            rw [hpc] at hswap
            have hhead : s.head = some h₀ := (Option.some.inj hswap).symm
            simp only [step, Sys.go, hpc, hhead, if_true, Option.some.injEq] at h
            exact h ▸ .pop k h₀ n hpc hhead
        | pushSwap b w =>
            rw [hpc] at hswap
            obtain rfl : w = s.head := Option.some.inj hswap
            simp only [step, Sys.go, hpc, if_true, Option.some.injEq] at h
            exact h ▸ .push k b hpc
        | idle | popLoad | popRead | pushLink | pushLoad | pushWrite =>
            rw [hpc] at hswap
            cases hswap
      · refine .none (by simp [completes, Pc.completes, hswap]) fun j => ?_
        cases moves_of_go h with
        | goto pc hpushed hready => exact congrArg List.length (owned_goto hpushed j)
        | pop h₀ n hpc hhead => exact absurd (by rw [hpc, hhead]; rfl) hswap
        | push b w hpc hhead => exact absurd (by rw [hpc, hhead]; rfl) hswap
        | linkNode b a c rest hpc =>
            refine congrArg List.length (owned_goto (s := s.link a (some c)) ?_ j)
            change _ = (s.pc k).pushed
            rw [linkFrom_pushed, hpc]
            rfl
        | writeLast b w hpc =>
            refine congrArg List.length (owned_goto (s := s.link b.last w) ?_ j)
            change _ = (s.pc k).pushed
            rw [hpc]
            rfl

/-- A batch is the one of a call that begins, or was being pushed before. -/
theorem pushed_of_step {act : Act κ α} (h : step reload s act = some s') (k : κ) :
    (s'.pc k).pushed = (s.pc k).pushed ∨ (s'.pc k).pushed = [] ∨
      ∃ b, act = .free k b ∧ (s'.pc k).pushed = b.nodes := by
  have self (pc : Pc α) : (Function.update s.pc k pc k).pushed = pc.pushed := by
    rw [Function.update_self]
  have other {j : κ} (pc : Pc α) (hne : k ≠ j) :
      (Function.update s.pc j pc k).pushed = (s.pc k).pushed := by
    rw [Function.update_of_ne hne]
  cases act with
  | alloc j =>
      simp only [step, Option.ite_none_right_eq_some, Option.some.injEq] at h
      obtain ⟨-, rfl⟩ := h
      rcases eq_or_ne k j with rfl | hne
      · exact .inr (.inl (self .popLoad))
      · exact .inl (other .popLoad hne)
  | free j b =>
      simp only [step, Option.ite_none_right_eq_some, Option.some.injEq] at h
      obtain ⟨-, rfl⟩ := h
      rcases eq_or_ne k j with rfl | hne
      · exact .inr (.inr ⟨b, rfl, (self _).trans (linkFrom_pushed b b.nodes)⟩)
      · exact .inl (other _ hne)
  | write j a w =>
      simp only [step, Option.ite_none_right_eq_some, Option.some.injEq] at h
      obtain ⟨-, rfl⟩ := h
      exact .inl rfl
  | go j =>
      rcases eq_or_ne k j with rfl | hne
      · cases moves_of_go h with
        | goto pc hpushed hready => exact .inl ((self pc).trans hpushed)
        | pop h₀ n hpc hhead => exact .inr (.inl (self .idle))
        | push b w hpc hhead => exact .inr (.inl (self .idle))
        | linkNode b a c rest hpc =>
            refine .inl ((self _).trans ?_)
            rw [linkFrom_pushed, hpc]
            rfl
        | writeLast b w hpc =>
            refine .inl ((self _).trans ?_)
            rw [hpc]
            rfl
      · obtain ⟨-, hpc, -⟩ := pc_of_go h
        rw [hpc]
        exact .inl (other _ hne)

/-- The nodes of a thread that does nothing stay where they are. -/
theorem holds_of_step {act : Act κ α} (h : step reload s act = some s') {k : κ}
    (hk : k ≠ act.thread) : s'.holds k = s.holds k := by
  cases act with
  | alloc j =>
      simp only [step, Option.ite_none_right_eq_some, Option.some.injEq] at h
      obtain ⟨-, rfl⟩ := h
      rfl
  | free j b =>
      simp only [step, Option.ite_none_right_eq_some, Option.some.injEq] at h
      obtain ⟨-, rfl⟩ := h
      exact Function.update_of_ne hk _ _
  | write j a w =>
      simp only [step, Option.ite_none_right_eq_some, Option.some.injEq] at h
      obtain ⟨-, rfl⟩ := h
      rfl
  | go j =>
      cases moves_of_go h with
      | goto | push | linkNode | writeLast => rfl
      | pop h₀ n hpc hhead => exact Function.update_of_ne hk _ _

omit [DecidableEq κ] in
theorem Epilogue.begun_eq_none {ρ : Type w} {γ : Type x} (E : Epilogue ρ γ) {act : Act κ α}
    (h : completes s act = 0) : E.begun s act = none := by
  cases act with
  | alloc | free | write => rfl
  | go k =>
      simp only [completes, Pc.completes, ite_eq_right_iff, one_ne_zero, imp_false] at h
      cases hpc : s.pc k with
      | popSwap h₀ n =>
          have hne : s.head ≠ some h₀ := fun heq => h (by rw [hpc, heq]; rfl)
          simp [begun, hpc, hne]
      | pushSwap b w =>
          have hne : s.head ≠ w := fun heq => h (by rw [hpc, heq]; rfl)
          simp [begun, hpc, hne]
      | idle | popLoad | popRead | pushLink | pushLoad | pushWrite => simp [begun, hpc]

omit [DecidableEq κ] in
theorem Epilogue.begun_cases {ρ : Type w} {γ : Type x} (E : Epilogue ρ γ) (s : Sys κ α)
    (act : Act κ α) : E.begun s act = none ∨ E.begun s act = some E.afterPop ∨
      ∃ n, E.begun s act = some (E.afterPush n) := by
  cases act with
  | alloc | free | write => exact .inl rfl
  | go k =>
      cases hpc : s.pc k with
      | popSwap h₀ n =>
          by_cases hhead : s.head = some h₀
          · exact .inr (.inl (by simp [begun, hpc, hhead]))
          · exact .inl (by simp [begun, hpc, hhead])
      | pushSwap b w =>
          by_cases hhead : s.head = w
          · exact .inr (.inr ⟨b.nodes.length, by simp [begun, hpc, hhead]⟩)
          · exact .inl (by simp [begun, hpc, hhead])
      | idle | popLoad | popRead | pushLink | pushLoad | pushWrite =>
          exact .inl (by simp [begun, hpc])

variable [Fintype κ]

theorem outstanding_pass {k j : κ} {a : α} (hne : k ≠ j) (ha : a ∈ s.holds k) :
    outstanding (s.pass k j a) = outstanding s := by
  -- by way of the hands where the first thread has already lost the node
  let mid : κ → ℕ := Function.update (fun i => (s.owned i).length) k ((s.owned k).length - 1)
  have hpos : 0 < (s.owned k).length :=
    List.length_pos_of_mem (List.mem_append_left _ ha)
  have herase : ((s.pass k j a).owned k).length = (s.owned k).length - 1 := by
    have hlength := List.length_erase_of_mem ha
    have hheld := List.length_pos_of_mem ha
    simp only [Sys.owned, pass_holds_self hne, List.length_append, hlength]
    change _ + (s.pc k).pushed.length = _
    omega
  have hgain : ((s.pass k j a).owned j).length = (s.owned j).length + 1 := by
    simp only [Sys.owned, pass_holds_other, List.length_append, List.length_cons]
    change _ + 1 + (s.pc j).pushed.length = _
    omega
  have hfirst := sum_add_eq_of_others (f := fun i => (s.owned i).length) (g := mid) (k := k)
    fun i hi => Function.update_of_ne hi _ _
  have hsecond := sum_add_eq_of_others (f := mid) (g := fun i => ((s.pass k j a).owned i).length)
    (k := j) fun i hi => by
      rcases eq_or_ne i k with rfl | hik
      · simpa [mid] using herase
      · simp only [mid, Function.update_of_ne hik, Sys.owned, pass_holds_of_ne hik hi]
        rfl
  have hk : mid k = (s.owned k).length - 1 := Function.update_self _ _ _
  have hj : mid j = (s.owned j).length := Function.update_of_ne hne.symm _ _
  rw [outstanding, outstanding]
  omega

variable {ρ : Type w} {γ : Type x} {E : Epilogue ρ γ} {σ σ' : Shared κ α ρ γ}

/-- The number `m` of the shared state, with what the programs in progress have yet to add to it, is
`c` for each outstanding node beyond `base`: exactly if `N` is `0`, and modulo `N` otherwise. -/
def Epilogue.Books (N : ℤ) (m : γ → ℤ) (owes : Option ρ → ℤ) (base c : ℤ)
    (σ : Shared κ α ρ γ) : Prop :=
  m σ.state + ∑ k, owes (σ.post k) ≡ base + outstanding σ.stack * c [ZMOD N]

omit [DecidableEq α] in
theorem sum_update_post (owes : Option ρ → ℤ) (post : κ → Option ρ) (k : κ) (o : Option ρ) :
    ∑ j, owes (Function.update post k o j) = ∑ j, owes (post j) + (owes o - owes (post k)) := by
  have hrest : ∑ j ∈ Finset.univ.erase k, owes (Function.update post k o j) =
      ∑ j ∈ Finset.univ.erase k, owes (post j) :=
    Finset.sum_congr rfl fun j hj => by rw [Function.update_of_ne (Finset.ne_of_mem_erase hj)]
  rw [← Finset.add_sum_erase _ _ (Finset.mem_univ k), hrest,
    ← Finset.add_sum_erase _ (fun j => owes (post j)) (Finset.mem_univ k), Function.update_self]
  ring

/-- **The number agrees with the outstanding nodes**: a pop owes `c` when it starts its program, a
push owes `-c` for each of its nodes, and a step of a program does what it owes. -/
theorem Epilogue.books_step {N : ℤ} {m : γ → ℤ} {owes : Option ρ → ℤ} {base c : ℤ} {d : Deed κ α}
    (h : Books N m owes base c σ) (hstep : E.step reload σ d = some σ') (hnone : owes none = 0)
    (hpop : owes (some E.afterPop) = c)
    (hpush : ∀ k b w, σ.stack.pc k = .pushSwap b w →
      owes (some (E.afterPush b.nodes.length)) = -(b.nodes.length * c))
    (htick : ∀ k r, σ.post k = some r →
      m (E.tick r σ.state).2 + owes (E.tick r σ.state).1 ≡ m σ.state + owes (some r) [ZMOD N]) :
    Books N m owes base c σ' := by
  unfold Books at h ⊢
  cases does_of_step hstep with
  | act a s hpost hs =>
      have hsum := sum_update_post owes σ.post a.thread (E.begun σ.stack a)
      rw [hpost, hnone, sub_zero] at hsum
      simp only [hsum]
      rw [← add_assoc]
      cases trades_of_step hs with
      | pop k h₀ n hpc hhead =>
          have hbegun : E.begun σ.stack (.go k) = some E.afterPop := by
            simp [begun, hpc, hhead]
          have hout : base + ((outstanding (σ.stack.take k h₀ n) : ℕ) : ℤ) * c =
              base + outstanding σ.stack * c + c := by
            rw [outstanding_take hpc]
            push_cast
            ring
          rw [hbegun, hpop, hout]
          exact h.add_right c
      | push k b hpc =>
          have hbegun : E.begun σ.stack (.go k) = some (E.afterPush b.nodes.length) := by
            simp [begun, hpc]
          have hout : base + ((outstanding (σ.stack.give k b) : ℕ) : ℤ) * c =
              base + outstanding σ.stack * c + -(b.nodes.length * c) := by
            rw [← outstanding_give hpc]
            push_cast
            ring
          rw [hbegun, hpush k b _ hpc, hout]
          exact h.add_right _
      | none hcompletes howned =>
          rw [E.begun_eq_none hcompletes, hnone, add_zero, outstanding_congr howned]
          exact h
  | tick k r hpost =>
      have hsum := sum_update_post owes σ.post k (E.tick r σ.state).1
      rw [hpost] at hsum
      -- the other programs owe what they owed
      have hall := (htick k r hpost).add_right (∑ j, owes (σ.post j) - owes (some r))
      have hleft : m (E.tick r σ.state).2 +
          ∑ j, owes (Function.update σ.post k (E.tick r σ.state).1 j) =
            m (E.tick r σ.state).2 + owes (E.tick r σ.state).1 +
              (∑ j, owes (σ.post j) - owes (some r)) := by
        rw [hsum]
        ring
      have hright : m σ.state + owes (some r) + (∑ j, owes (σ.post j) - owes (some r)) =
          m σ.state + ∑ j, owes (σ.post j) := by ring
      simp only [hleft]
      rw [hright] at hall
      exact hall.trans h
  | pass k j a hne hidle ha =>
      rw [outstanding_pass hne ha]
      exact h

end Books

/-! ### The nodes, counted -/

section Parts

variable {κ : Type v} {α : Type u} [Fintype κ] [DecidableEq α]

/-- The nodes on the stack and the outstanding ones are all the nodes. -/
theorem Sys.Sound.length_add_outstanding {s : Sys κ α} {B : Set α} (h : s.Sound B) :
    ∃ l, Chain s.next s.head l ∧ l.length + outstanding s = B.ncard := by
  obtain ⟨l, hchain, hown⟩ := h
  refine ⟨l, hchain, ?_⟩
  have hcard : ∀ o, ((s.places l o).toFinset).card = (s.places l o).length := fun o =>
    List.toFinset_card_of_nodup (hown.once o)
  have hunion : B =
      ((Finset.univ : Finset (Option κ)).biUnion fun o => (s.places l o).toFinset : Finset α) := by
    ext a
    simpa using hown.cover a
  have hdisjoint : ∀ o ∈ (Finset.univ : Finset (Option κ)), ∀ o' ∈ Finset.univ, o ≠ o' →
      Disjoint (s.places l o).toFinset (s.places l o').toFinset := by
    intro o _ o' _ hne
    refine Finset.disjoint_left.2 fun a ha ha' => hne ?_
    exact hown.alone a o o' (List.mem_toFinset.1 ha) (List.mem_toFinset.1 ha')
  rw [hunion, Set.ncard_coe_finset, Finset.card_biUnion hdisjoint,
    Finset.sum_congr rfl fun o _ => hcard o, Fintype.sum_option]
  rfl

end Parts

/-! ### Progress -/

section Progress

variable {κ : Type v} {α : Type u} {ρ : Type w} {γ : Type x}

/-- The deed is a step of a call. -/
def Deed.steps : Deed κ α → ℕ
  | .act a => a.steps
  | .pass _ _ _ => 0

/-- A call begins. -/
def Deed.calls : Deed κ α → ℕ
  | .act a => a.calls
  | .pass _ _ _ => 0

/-- The links inside of the batch of a call that begins. -/
def Deed.links : Deed κ α → ℕ
  | .act a => a.links
  | .pass _ _ _ => 0

/-- No call is in progress. -/
structure Quiet (σ : Shared κ α ρ γ) : Prop where
  idle : ∀ k, σ.stack.pc k = .idle
  done : ∀ k, σ.post k = none

/-- The thread is inside of a call. -/
def Busy (σ : Shared κ α ρ γ) (k : κ) : Prop := σ.stack.pc k ≠ .idle ∨ σ.post k ≠ none

/-- The programs end after at most `m` steps; `left` is the number of steps that remain. -/
structure Epilogue.Ends (E : Epilogue ρ γ) (left : ρ → ℕ) (m : ℕ) : Prop where
  tick : ∀ r g, 1 + (E.tick r g).1.elim 0 left ≤ left r
  afterPop : left E.afterPop ≤ m
  afterPush : ∀ n, left (E.afterPush n) ≤ m

variable [DecidableEq κ] [DecidableEq α] {E : Epilogue ρ γ} {reload : Bool}
variable {σ σ' : Shared κ α ρ γ} {left : ρ → ℕ} {m : ℕ}

/-- **A thread inside of a call can take its next step**, be it in its program or before. -/
theorem Epilogue.exists_go (E : Epilogue ρ γ) (reload : Bool) {k : κ} (h : Busy σ k) :
    ∃ σ', E.step reload σ (.act (.go k)) = some σ' := by
  cases hpost : σ.post k with
  | some r =>
      simp only [step, Act.thread, hpost]
      exact ⟨_, rfl⟩
  | none =>
      have hpc : σ.stack.pc k ≠ .idle := h.resolve_right fun hne => hne hpost
      obtain ⟨s, hs⟩ := TreiberStack.exists_go reload hpc
      simp only [step, Act.thread, hpost, TreiberStack.step, hs, Option.map_some]
      exact ⟨_, rfl⟩

omit [DecidableEq κ] in
/-- A program starts only where a swap succeeds. -/
theorem Epilogue.begun_le (hE : E.Ends left m) (s : Sys κ α) (a : Act κ α) :
    (E.begun s a).elim 0 left ≤ m * completes s a := by
  rcases Nat.eq_zero_or_pos (completes s a) with hzero | hpos
  · rw [E.begun_eq_none hzero]
    exact Nat.zero_le _
  · refine le_trans ?_ (Nat.le_mul_of_pos_right m hpos)
    rcases E.begun_cases s a with hbegun | hbegun | ⟨n, hbegun⟩
    · rw [hbegun]
      exact Nat.zero_le m
    · rw [hbegun]
      exact hE.afterPop
    · rw [hbegun]
      exact hE.afterPush n

variable [Fintype κ]

/-- The steps that are still to come from the calls in progress. -/
def Epilogue.effort (left : ρ → ℕ) (m : ℕ) (σ : Shared κ α ρ γ) : ℕ :=
  work σ.stack + m * inCall σ.stack + ∑ k, (σ.post k).elim 0 left

omit [DecidableEq κ] in
theorem Epilogue.effort_eq_zero (h : Quiet σ) : effort left m σ = 0 := by
  simp [effort, work_eq_zero h.idle, inCall, h.idle, h.done, Pc.inCall]

/-- **`n` threads take at most `3 * n + m` steps for each call**, and one for each link inside of
its batch. -/
theorem Epilogue.steps_add_effort {d : Deed κ α} (hE : E.Ends left m)
    (h : E.step reload σ d = some σ') :
    d.steps + effort left m σ' ≤
      effort left m σ + ((3 * Fintype.card κ + m) * d.calls + d.links) := by
  have hpost (k : κ) (o : Option ρ) := sum_add_eq_of_others (k := k)
    (f := fun j => (σ.post j).elim 0 left)
    (g := fun j => (Function.update σ.post k o j).elim 0 left)
    fun j hj => by rw [Function.update_of_ne hj]
  simp only [Function.update_self] at hpost
  unfold effort
  cases does_of_step h with
  | act a s hnone hs =>
      have hwork := steps_add_work hs
      have hcalls := Nat.mul_le_mul_left m (completes_add_inCall hs)
      have hsum := hpost a.thread (E.begun σ.stack a)
      have hbegun := begun_le hE σ.stack a
      rw [hnone, Option.elim_none, Nat.add_zero] at hsum
      rw [Nat.mul_add, Nat.mul_add] at hcalls
      simp only [Deed.steps, Deed.calls, Deed.links, hsum, Nat.add_mul]
      omega
  | tick k r hsome =>
      have hsum := hpost k (E.tick r σ.state).1
      have htick := hE.tick r σ.state
      rw [hsome, Option.elim_some] at hsum
      simp only [Deed.steps, Deed.calls, Deed.links, Act.steps, Act.calls, Act.links]
      omega
  | pass k j a hne hidle ha =>
      have hwork : work (σ.stack.pass k j a) = work σ.stack := rfl
      have hin : inCall (σ.stack.pass k j a) = inCall σ.stack := rfl
      simp [Deed.steps, Deed.calls, Deed.links, hwork, hin]

end Progress

end TreiberStack
