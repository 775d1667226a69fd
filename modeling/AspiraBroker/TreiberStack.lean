/-
**The lock-free stack of free nodes.**

Any number of threads share a stack of nodes that are linked through themselves.  A pop loads the
head, reads the link of the node it found, and swaps the head from that node to that link by a
compare-and-swap; a push links its nodes one to the next, loads the head, writes it into the link of
the last one, and swaps the head to the first one.  A swap that fails starts over: a pop loads
again, a push either loads again or goes on with the value that the failed swap has seen.  Every
load, read, write and swap is a step of its own.  The owner of a node may write anything into its
link.

The swap of a pop compares the head alone.  If the node was popped and pushed back since its link
was read, the swap succeeds with a link that is out of date.  This is the only thing that can go
wrong: in every run each node has one owner, which is a thread or the stack, exactly as long as no
pop succeeds with a link that is out of date.

Main definitions:

* `TreiberStack.OneOwner` — every node has one owner;
* `TreiberStack.Sys`, `TreiberStack.step` — the threads and their steps;
* `TreiberStack.Sys.Sound` — every node is owned by one thread or reached once from the head;
* `TreiberStack.Fresh` — a pop does not succeed with a link that is out of date.

Main results:

* `TreiberStack.OneOwner.move` — nodes change hands;
* `TreiberStack.Inv.step` — fresh steps keep the invariant;
* `TreiberStack.sound_iff` — **every node has one owner exactly as long as every pop is fresh**.
-/

import AspiraBroker.LinkedChain
import AspiraBroker.TransitionRuns
import Mathlib.Data.List.Count
import Mathlib.Data.Set.Basic

set_option relaxedAutoImplicit false
set_option autoImplicit false

namespace TreiberStack

open LinkedChain Transition

universe u v w

/-! ### Owners -/

/-- Every node of `B` is in the hands of one owner, who has it once; there are no other nodes. -/
structure OneOwner {ο : Type v} {α : Type u} (B : Set α) (own : ο → List α) : Prop where
  cover : ∀ a, a ∈ B ↔ ∃ o, a ∈ own o
  alone : ∀ a o o', a ∈ own o → a ∈ own o' → o = o'
  once : ∀ o, (own o).Nodup

namespace OneOwner

variable {ο : Type v} {α : Type u} {B : Set α} {own own' : ο → List α}

/-- The order in which an owner keeps the nodes does not matter. -/
theorem of_perm (h : OneOwner B own) (hperm : ∀ o, (own' o).Perm (own o)) : OneOwner B own' where
  cover a := by
    rw [h.cover]
    exact exists_congr fun o => (hperm o).mem_iff.symm
  alone a o o' ho ho' := h.alone a o o' ((hperm o).mem_iff.1 ho) ((hperm o').mem_iff.1 ho')
  once o := (hperm o).nodup_iff.2 (h.once o)

/-- **Nodes change hands**: `o₁` gives the nodes `ns` to `o₂`. -/
theorem move (h : OneOwner B own) (o₁ o₂ : ο) (ns : List α) (hne : o₁ ≠ o₂)
    (hgive : (own o₁).Perm (ns ++ own' o₁)) (htake : (own' o₂).Perm (ns ++ own o₂))
    (helse : ∀ o, o ≠ o₁ → o ≠ o₂ → own' o = own o) : OneOwner B own' := by
  have hns : ∀ a ∈ ns, a ∈ own o₁ := fun a ha => hgive.mem_iff.2 (List.mem_append_left _ ha)
  have hnodup := List.nodup_append'.1 (hgive.nodup_iff.1 (h.once o₁))
  -- where a node was before
  have origin : ∀ a o, a ∈ own' o → (a ∈ ns ∧ o = o₂) ∨ (a ∉ ns ∧ a ∈ own o) := by
    intro a o ha
    rcases eq_or_ne o o₂ with rfl | ho₂
    · rcases List.mem_append.1 (htake.mem_iff.1 ha) with hin | hown
      · exact .inl ⟨hin, rfl⟩
      · exact .inr ⟨fun hin => hne (h.alone a _ _ (hns a hin) hown), hown⟩
    · rcases eq_or_ne o o₁ with rfl | ho₁
      · exact .inr ⟨fun hin => hnodup.2.2 hin ha, hgive.mem_iff.2 (List.mem_append_right _ ha)⟩
      · rw [helse o ho₁ ho₂] at ha
        exact .inr ⟨fun hin => ho₁ (h.alone a _ _ ha (hns a hin)), ha⟩
  refine ⟨fun a => ?_, fun a o o' ho ho' => ?_, fun o => ?_⟩
  · rw [h.cover]
    constructor
    · rintro ⟨o, ha⟩
      by_cases hin : a ∈ ns
      · exact ⟨o₂, htake.mem_iff.2 (List.mem_append_left _ hin)⟩
      · refine ⟨o, ?_⟩
        rcases eq_or_ne o o₁ with rfl | ho₁
        · exact (List.mem_append.1 (hgive.mem_iff.1 ha)).resolve_left hin
        · rcases eq_or_ne o o₂ with rfl | ho₂
          · exact htake.mem_iff.2 (List.mem_append_right _ ha)
          · rwa [helse o ho₁ ho₂]
    · rintro ⟨o, ha⟩
      rcases origin a o ha with ⟨hin, -⟩ | ⟨-, hown⟩
      · exact ⟨o₁, hns a hin⟩
      · exact ⟨o, hown⟩
  · rcases origin a o ho with ⟨hin, rfl⟩ | ⟨hout, hown⟩
    · rcases origin a o' ho' with ⟨-, rfl⟩ | ⟨hout, -⟩
      · rfl
      · exact absurd hin hout
    · rcases origin a o' ho' with ⟨hin, -⟩ | ⟨-, hown'⟩
      · exact absurd hin hout
      · exact h.alone a o o' hown hown'
  · rcases eq_or_ne o o₂ with rfl | ho₂
    · rw [htake.nodup_iff, List.nodup_append']
      refine ⟨hnodup.1, h.once o, fun a hin hown => ?_⟩
      exact hne (h.alone a _ _ (hns a hin) hown)
    · rcases eq_or_ne o o₁ with rfl | ho₁
      · exact hnodup.2.1
      · rw [helse o ho₁ ho₂]
        exact h.once o

/-- What one owner has is determined by what the others have. -/
theorem mem_of_others (h : OneOwner B own) (h' : OneOwner B own') {o : ο}
    (helse : ∀ o', o' ≠ o → own' o' = own o') {a : α} (ha : a ∈ own o) : a ∈ own' o := by
  obtain ⟨o', ho'⟩ := (h'.cover a).1 ((h.cover a).2 ⟨o, ha⟩)
  rcases eq_or_ne o' o with rfl | hne
  · exact ho'
  · rw [helse o' hne] at ho'
    exact absurd (h.alone a _ _ ho' ha) hne

end OneOwner

/-! ### The threads -/

/-- The nodes of one push: at least one. -/
structure Batch (α : Type u) where
  first : α
  rest : List α
  deriving DecidableEq

namespace Batch

variable {α : Type u}

/-- The nodes, in the order in which they are linked. -/
def nodes (b : Batch α) : List α := b.first :: b.rest

/-- The node that will be linked to the old head. -/
def last (b : Batch α) : α := b.rest.getLastD b.first

theorem last_mem (b : Batch α) : b.last ∈ b.nodes := by
  obtain ⟨first, rest⟩ := b
  induction rest generalizing first with
  | nil => exact List.mem_singleton_self first
  | cons c rest ih =>
      have := ih c
      simp only [last, nodes, List.getLastD_cons] at this ⊢
      exact List.mem_cons_of_mem first this

theorem nodes_eq (b : Batch α) : b.nodes = b.nodes.dropLast ++ [b.last] := by
  obtain ⟨first, rest⟩ := b
  induction rest generalizing first with
  | nil => rfl
  | cons c rest ih =>
      have := ih c
      simp only [last, nodes, List.getLastD_cons, List.dropLast_cons_cons, List.cons_append]
        at this ⊢
      rw [← this]

end Batch

/-- Where a thread is. -/
inductive Pc (α : Type u)
  /-- outside of every call -/
  | idle
  /-- about to load the head -/
  | popLoad
  /-- the head was `h`: about to read its link -/
  | popRead (h : α)
  /-- the link of `h` was `n`: about to swap the head from `h` to `n` -/
  | popSwap (h : α) (n : Option α)
  /-- about to link the node `a` of the batch to the next one, `c` -/
  | pushLink (b : Batch α) (a c : α) (rest : List α)
  /-- the batch is linked: about to load the head -/
  | pushLoad (b : Batch α)
  /-- the head was `h`: about to write it into the link of the last node -/
  | pushWrite (b : Batch α) (h : Option α)
  /-- about to swap the head from `h` to the first node -/
  | pushSwap (b : Batch α) (h : Option α)
  deriving DecidableEq

/-- The nodes that the thread is in the course of pushing. -/
def Pc.pushed {α : Type u} : Pc α → List α
  | .idle | .popLoad | .popRead _ | .popSwap _ _ => []
  | .pushLink b _ _ _ | .pushLoad b | .pushWrite b _ | .pushSwap b _ => b.nodes

/-- What is left to do before the head is loaded: to link the nodes of the batch from the given one
on. -/
def linkFrom {α : Type u} (b : Batch α) : List α → Pc α
  | a :: c :: rest => .pushLink b a c rest
  | _ => .pushLoad b

/-- The stack, the threads, and the nodes that each thread holds. -/
structure Sys (κ : Type v) (α : Type u) where
  head : Option α
  next : α → Option α
  pc : κ → Pc α
  holds : κ → List α

/-- What a thread may do next: call, write into the link of a node it holds, or take the next step
of its call. -/
inductive Act (κ : Type v) (α : Type u)
  | alloc (k : κ)
  | free (k : κ) (b : Batch α)
  | write (k : κ) (a : α) (w : Option α)
  | go (k : κ)

section Step

variable {κ : Type v} {α : Type u} [DecidableEq κ] [DecidableEq α]

namespace Sys

/-- The thread moves on. -/
def goto (s : Sys κ α) (k : κ) (pc : Pc α) : Sys κ α :=
  { s with pc := Function.update s.pc k pc }

/-- A link is written. -/
def link (s : Sys κ α) (a : α) (w : Option α) : Sys κ α :=
  { s with next := Function.update s.next a w }

/-- The thread gets the node `h` and leaves `n` as the head. -/
def take (s : Sys κ α) (k : κ) (h : α) (n : Option α) : Sys κ α :=
  { s.goto k .idle with head := n, holds := Function.update s.holds k (h :: s.holds k) }

/-- The thread leaves its batch on the stack. -/
def give (s : Sys κ α) (k : κ) (b : Batch α) : Sys κ α :=
  { s.goto k .idle with head := some b.first }

/-- The thread starts to push nodes that it holds. -/
def enter (s : Sys κ α) (k : κ) (b : Batch α) : Sys κ α :=
  { s.goto k (linkFrom b b.nodes) with
    holds := Function.update s.holds k ((s.holds k).diff b.nodes) }

/-- The next step of the call that the thread is in. -/
def go (reload : Bool) (s : Sys κ α) (k : κ) : Option (Sys κ α) :=
  match s.pc k with
  | .idle => none
  | .popLoad =>
      match s.head with
      | none => some (s.goto k .idle)
      | some h => some (s.goto k (.popRead h))
  | .popRead h => some (s.goto k (.popSwap h (s.next h)))
  | .popSwap h n =>
      if s.head = some h then some (s.take k h n) else some (s.goto k .popLoad)
  | .pushLink b a c rest => some ((s.link a (some c)).goto k (linkFrom b (c :: rest)))
  | .pushLoad b => some (s.goto k (.pushWrite b s.head))
  | .pushWrite b h => some ((s.link b.last h).goto k (.pushSwap b h))
  | .pushSwap b h =>
      if s.head = h then some (s.give k b)
      else some (s.goto k (if reload then .pushLoad b else .pushWrite b s.head))

/-- The nodes that a thread holds or is in the course of pushing. -/
def owned (s : Sys κ α) (k : κ) : List α := s.holds k ++ (s.pc k).pushed

/-- The nodes by owner: those of the stack, and those of each thread. -/
def places (s : Sys κ α) (l : List α) : Option κ → List α
  | none => l
  | some k => s.owned k

/-- Every node of `B` is either reached once from the head, or held or being pushed by one
thread. -/
def Sound (B : Set α) (s : Sys κ α) : Prop :=
  ∃ l, Chain s.next s.head l ∧ OneOwner B (s.places l)

end Sys

/-- One step of one thread.  A thread pushes distinct nodes that it holds. -/
def step (reload : Bool) (s : Sys κ α) : Act κ α → Option (Sys κ α)
  | .alloc k => if s.pc k = .idle then some (s.goto k .popLoad) else none
  | .free k b =>
      if s.pc k = .idle ∧ b.nodes.Nodup ∧ b.nodes ⊆ s.holds k then some (s.enter k b) else none
  | .write k a w => if s.pc k = .idle ∧ a ∈ s.holds k then some (s.link a w) else none
  | .go k => s.go reload k

/-- The pop that is about to succeed has read the link that its node still has. -/
def Pc.Fresh (s : Sys κ α) : Pc α → Prop
  | .popSwap h n => s.head = some h → s.next h = n
  | _ => True

/-- The node that is about to be popped is in the hands of no thread. -/
def Pc.Unowned (s : Sys κ α) : Pc α → Prop
  | .popSwap h _ => s.head = some h → ∀ j, h ∉ s.owned j
  | _ => True

/-- The step is not a pop that succeeds with a link that is out of date. -/
def Fresh (s : Sys κ α) : Act κ α → Prop
  | .go k => (s.pc k).Fresh s
  | _ => True

/-- The step is not a pop of a node that a thread holds or is in the course of pushing. -/
def PopsUnowned (s : Sys κ α) : Act κ α → Prop
  | .go k => (s.pc k).Unowned s
  | _ => True

instance (s : Sys κ α) : ∀ pc : Pc α, Decidable (pc.Fresh s)
  | .popSwap h n => inferInstanceAs (Decidable (s.head = some h → s.next h = n))
  | .idle | .popLoad | .popRead _ | .pushLink _ _ _ _ | .pushLoad _ | .pushWrite _ _
  | .pushSwap _ _ => isTrue trivial

instance (s : Sys κ α) : ∀ a : Act κ α, Decidable (Fresh s a)
  | .go k => inferInstanceAs (Decidable ((s.pc k).Fresh s))
  | .alloc _ | .free _ _ | .write _ _ _ => isTrue trivial

end Step

/-! ### Calls that are not interrupted -/

section Alone

variable {κ : Type v} {α : Type u} [DecidableEq κ] {s : Sys κ α} {k : κ} {pc pc' : Pc α}

@[simp] theorem goto_pc : (s.goto k pc).pc k = pc := by
  simp [Sys.goto]

@[simp] theorem goto_head : (s.goto k pc).head = s.head := rfl

@[simp] theorem goto_next : (s.goto k pc).next = s.next := rfl

@[simp] theorem goto_holds : (s.goto k pc).holds = s.holds := rfl

@[simp] theorem goto_goto : (s.goto k pc).goto k pc' = s.goto k pc' := by
  simp [Sys.goto]

@[simp] theorem take_goto (h : α) (n : Option α) : (s.goto k pc).take k h n = s.take k h n := by
  simp [Sys.take]

variable [DecidableEq α] (reload : Bool)

/-- A pop that finds the stack empty. -/
theorem pop_alone_none (hpc : s.pc k = .idle) (hhead : s.head = none) :
    run (step reload) s [.alloc k, .go k] = some (s.goto k .idle) := by
  simp [run, step, Sys.go, hpc, hhead]

/-- A pop that is not interrupted takes the first node. -/
theorem pop_alone (hpc : s.pc k = .idle) {h : α} (hhead : s.head = some h) :
    run (step reload) s [.alloc k, .go k, .go k, .go k] = some (s.take k h (s.next h)) := by
  simp [run, step, Sys.go, hpc, hhead]

/-- The nodes of a batch are linked from the given one on. -/
theorem link_alone (b : Batch α) (a : α) (rest : List α) :
    run (step reload) (s.goto k (linkFrom b (a :: rest))) (List.replicate rest.length (.go k)) =
      some { s.goto k (.pushLoad b) with next := linkAll s.next (a :: rest) } := by
  induction rest generalizing a s with
  | nil => rfl
  | cons c rest ih =>
      have hstep : step reload (s.goto k (linkFrom b (a :: c :: rest))) (.go k) =
          some ((s.link a (some c)).goto k (linkFrom b (c :: rest))) := by
        simp [step, Sys.go, linkFrom, Sys.link, Sys.goto]
      rw [List.length_cons, List.replicate_succ, run_cons_eq hstep, ih]
      rfl

/-- A push that is not interrupted puts its nodes in front. -/
theorem pushBatch_alone (hpc : s.pc k = .idle) {b : Batch α} (hnodup : b.nodes.Nodup)
    (hheld : b.nodes ⊆ s.holds k) :
    run (step reload) s (.free k b :: List.replicate (b.rest.length + 3) (.go k)) =
      some ⟨some b.first, Function.update (linkAll s.next b.nodes) b.last s.head,
        Function.update s.pc k .idle,
        Function.update s.holds k ((s.holds k).diff b.nodes)⟩ := by
  -- the nodes are taken from the thread, linked, and swapped in by the last three steps
  let s₁ : Sys κ α :=
    { s with holds := Function.update s.holds k ((s.holds k).diff b.nodes) }
  let s₂ : Sys κ α := { s₁.goto k (.pushLoad b) with next := linkAll s.next b.nodes }
  have hfree : step reload s (.free k b) = some (s₁.goto k (linkFrom b b.nodes)) :=
    if_pos ⟨hpc, hnodup, hheld⟩
  have hlink : run (step reload) (s₁.goto k (linkFrom b b.nodes))
      (List.replicate b.rest.length (.go k)) = some s₂ := link_alone reload b b.first b.rest
  rw [run_cons_eq hfree, List.replicate_add, run_append_eq hlink]
  simp [run, step, Sys.go, Sys.give, Sys.link, Sys.goto, s₂, s₁]

/-- A push of one node that is not interrupted puts it in front. -/
theorem push_alone (hpc : s.pc k = .idle) {a : α} (ha : a ∈ s.holds k) :
    run (step reload) s [.free k ⟨a, []⟩, .go k, .go k, .go k] =
      some ⟨some a, Function.update s.next a s.head, Function.update s.pc k .idle,
        Function.update s.holds k ((s.holds k).erase a)⟩ := by
  let b : Batch α := ⟨a, []⟩
  have hnodup : b.nodes.Nodup := List.nodup_singleton a
  have hheld : b.nodes ⊆ s.holds k := List.cons_subset.2 ⟨ha, List.nil_subset _⟩
  simpa [b, Batch.nodes, Batch.last, linkAll] using pushBatch_alone reload hpc hnodup hheld

end Alone

/-! ### The invariant -/

section Invariant

variable {κ : Type v} {α : Type u} {next next' : α → Option α}

/-- What a thread in the course of a push has done to the links of its nodes. -/
def Pc.Ready (next : α → Option α) : Pc α → Prop
  | .pushLink b a c rest =>
      ∃ done, b.nodes = done ++ a :: c :: rest ∧ Chain.Linked next (done ++ [a])
  | .pushLoad b | .pushWrite b _ => Chain.Linked next b.nodes
  | .pushSwap b h => Chain.Linked next b.nodes ∧ next b.last = h
  | .idle | .popLoad | .popRead _ | .popSwap _ _ => True

/-- Only the links of the nodes that are being pushed matter. -/
theorem Pc.Ready.congr {pc : Pc α} (h : pc.Ready next)
    (hnext : ∀ a ∈ pc.pushed, next' a = next a) : pc.Ready next' := by
  have hbatch : ∀ b : Batch α, (∀ a ∈ b.nodes, next' a = next a) → Chain.Linked next b.nodes →
      Chain.Linked next' b.nodes := fun b hb hlinked =>
    hlinked.congr fun a ha => hb a ((List.dropLast_sublist _).subset ha)
  cases pc with
  | idle | popLoad | popRead | popSwap => trivial
  | pushLink b a c rest =>
      obtain ⟨done, hnodes, hlinked⟩ := h
      refine ⟨done, hnodes, hlinked.congr fun x hx => hnext x ?_⟩
      rw [List.dropLast_concat] at hx
      change x ∈ b.nodes
      rw [hnodes]
      exact List.mem_append_left _ hx
  | pushLoad b => exact hbatch b hnext h
  | pushWrite b w => exact hbatch b hnext h
  | pushSwap b w => exact ⟨hbatch b hnext h.1, (hnext _ b.last_mem).trans h.2⟩

@[simp] theorem linkFrom_pushed (b : Batch α) (l : List α) : (linkFrom b l).pushed = b.nodes := by
  unfold linkFrom
  split <;> rfl

/-- The part of the batch up to the node that is linked next is linked. -/
theorem linkFrom_ready {b : Batch α} {done rest : List α} {a : α}
    (hnodes : b.nodes = done ++ a :: rest) (hlinked : Chain.Linked next (done ++ [a])) :
    (linkFrom b (a :: rest)).Ready next := by
  cases rest with
  | nil =>
      change Chain.Linked next b.nodes
      rwa [hnodes]
  | cons c rest => exact ⟨done, hnodes, hlinked⟩

variable {B : Set α} {s s' : Sys κ α} {k j : κ} {a : α}

/-- Every node has one owner, and the threads in the course of a push have linked their nodes. -/
structure Inv (B : Set α) (s : Sys κ α) : Prop where
  sound : s.Sound B
  ready : ∀ k, (s.pc k).Ready s.next

theorem places_congr (h : ∀ j, s'.owned j = s.owned j) (l : List α) : s'.places l = s.places l := by
  funext o
  cases o with
  | none => rfl
  | some j => exact h j

/-- A node in the hands of two threads has not one owner. -/
theorem not_sound_of_shared (hj : a ∈ s.owned j) (hk : a ∈ s.owned k) (hne : j ≠ k) :
    ¬ s.Sound B := by
  rintro ⟨l, -, hown⟩
  exact hne (Option.some.inj (hown.alone a (some j) (some k) hj hk))

/-- The nodes that a thread is in the course of pushing are distinct. -/
theorem Inv.nodup_pushed (h : Inv B s) (k : κ) : (s.pc k).pushed.Nodup := by
  obtain ⟨l, -, hown⟩ := h.sound
  exact (List.nodup_append'.1 (hown.once (some k))).2.1

/-- A thread writes into the link of a node of its own. -/
theorem sound_link [DecidableEq α] (h : s.Sound B) (ha : a ∈ s.owned k) (w : Option α) :
    (s.link a w).Sound B := by
  obtain ⟨l, hchain, hown⟩ := h
  refine ⟨l, hchain.update (fun hl => ?_) w, hown⟩
  cases hown.alone a none (some k) hl ha

/-- A write into a node of one thread does not concern the pushes of the others. -/
theorem Inv.ready_link [DecidableEq α] (h : Inv B s) (ha : a ∈ s.owned k) (w : Option α)
    (hj : j ≠ k) : (s.pc j).Ready (s.link a w).next := by
  obtain ⟨l, -, hown⟩ := h.sound
  refine (h.ready j).congr fun c hc => ?_
  have hne : c ≠ a := by
    rintro rfl
    have := hown.alone c (some j) (some k) (List.mem_append_right _ hc) ha
    exact hj (Option.some.inj this)
  exact Function.update_of_ne hne w s.next

/-- A pop takes a node that no thread owns. -/
theorem Inv.popsUnowned (h : Inv B s) (act : Act κ α) : PopsUnowned s act := by
  cases act with
  | alloc | free | write => trivial
  | go k =>
      change (s.pc k).Unowned s
      cases s.pc k with
      | popSwap h₀ n =>
          intro hhead j hj
          obtain ⟨l, hchain, hown⟩ := h.sound
          rw [hhead] at hchain
          obtain ⟨t, rfl, -⟩ := hchain.exists_cons
          cases hown.alone h₀ none (some j) List.mem_cons_self hj
      | _ => trivial

variable [DecidableEq κ]

theorem owned_goto {pc : Pc α} (hpushed : pc.pushed = (s.pc k).pushed) (j : κ) :
    (s.goto k pc).owned j = s.owned j := by
  rcases eq_or_ne j k with rfl | hj
  · simp [Sys.owned, Sys.goto, hpushed]
  · simp [Sys.owned, Sys.goto, Function.update_of_ne hj]

/-- A thread that moves on without giving or taking a node. -/
theorem sound_goto {pc : Pc α} (h : s.Sound B) (hpushed : pc.pushed = (s.pc k).pushed) :
    (s.goto k pc).Sound B := by
  obtain ⟨l, hchain, hown⟩ := h
  refine ⟨l, hchain, ?_⟩
  rw [places_congr (owned_goto hpushed)]
  exact hown

/-- The threads that do not move are as ready as before. -/
theorem ready_goto {pc : Pc α} (h : ∀ j ≠ k, (s.pc j).Ready next) (hpc : pc.Ready next) (j : κ) :
    ((s.goto k pc).pc j).Ready next := by
  rcases eq_or_ne j k with rfl | hj
  · simpa [Sys.goto] using hpc
  · simpa [Sys.goto, Function.update_of_ne hj] using h j hj

theorem Inv.goto {pc : Pc α} (h : Inv B s) (hpushed : pc.pushed = (s.pc k).pushed)
    (hpc : pc.Ready s.next) : Inv B (s.goto k pc) :=
  ⟨sound_goto h.sound hpushed, ready_goto (fun j _ => h.ready j) hpc⟩

/-- The first node of the stack changes hands, whatever the head becomes. -/
theorem places_pop {h₀ : α} {n : Option α} {t : List α} (hown : OneOwner B (s.places (h₀ :: t)))
    (hpc : s.pc k = .popSwap h₀ n) : OneOwner B ((s.take k h₀ n).places t) := by
  refine hown.move none (some k) [h₀] (by simp) (List.Perm.refl _) ?_ ?_
  · simp [Sys.places, Sys.owned, Sys.take, Sys.goto, hpc, Pc.pushed]
  · intro o hnone hk
    cases o with
    | none => exact absurd rfl hnone
    | some j =>
        have hj : j ≠ k := fun h => hk (congrArg some h)
        simp [Sys.places, Sys.owned, Sys.take, Sys.goto, Function.update_of_ne hj]

/-- The batch of a push changes hands. -/
theorem places_push {b : Batch α} {w : Option α} {l : List α} (hown : OneOwner B (s.places l))
    (hpc : s.pc k = .pushSwap b w) : OneOwner B ((s.give k b).places (b.nodes ++ l)) := by
  refine hown.move (some k) none b.nodes (by simp) ?_ (List.Perm.refl _) ?_
  · simpa [Sys.places, Sys.owned, Sys.give, Sys.goto, hpc, Pc.pushed] using List.perm_append_comm
  · intro o hk hnone
    cases o with
    | none => exact absurd rfl hnone
    | some j =>
        have hj : j ≠ k := fun h => hk (congrArg some h)
        simp [Sys.places, Sys.owned, Sys.give, Sys.goto, Function.update_of_ne hj]

/-- A pop with the right link takes the first node off the stack. -/
theorem Inv.pop {h₀ : α} {n : Option α} (h : Inv B s) (hpc : s.pc k = .popSwap h₀ n)
    (hhead : s.head = some h₀) (hfresh : s.next h₀ = n) : Inv B (s.take k h₀ n) := by
  refine ⟨?_, ready_goto (fun j _ => h.ready j) trivial⟩
  obtain ⟨l, hchain, hown⟩ := h.sound
  rw [hhead] at hchain
  obtain ⟨t, rfl, ht⟩ := hchain.exists_cons
  rw [hfresh] at ht
  exact ⟨t, ht, places_pop hown hpc⟩

/-- A push puts its batch in front of the stack. -/
theorem Inv.push {b : Batch α} {w : Option α} (h : Inv B s) (hpc : s.pc k = .pushSwap b w)
    (hhead : s.head = w) : Inv B (s.give k b) := by
  refine ⟨?_, ready_goto (fun j _ => h.ready j) trivial⟩
  have hready := h.ready k
  rw [hpc] at hready
  obtain ⟨hlinked, hlast⟩ := hready
  obtain ⟨l, hchain, hown⟩ := h.sound
  have hrest : Chain s.next (s.next b.last) l := by rwa [hlast, ← hhead]
  exact ⟨b.nodes ++ l, Chain.splice hlinked hrest, places_push hown hpc⟩

variable [DecidableEq α]

/-- A thread writes into the link of a node that it pushes, and moves on. -/
theorem Inv.link_goto {pc : Pc α} (h : Inv B s) (ha : a ∈ (s.pc k).pushed) (w : Option α)
    (hpushed : pc.pushed = (s.pc k).pushed) (hpc : pc.Ready (s.link a w).next) :
    Inv B ((s.link a w).goto k pc) := by
  have ha' : a ∈ s.owned k := List.mem_append_right _ ha
  exact ⟨sound_goto (sound_link h.sound ha' w) hpushed,
    ready_goto (fun j hj => h.ready_link ha' w hj) hpc⟩

/-- A node of the batch is linked to the next one. -/
theorem Inv.linkNode {b : Batch α} {c : α} {rest : List α} (h : Inv B s)
    (hpc : s.pc k = .pushLink b a c rest) :
    Inv B ((s.link a (some c)).goto k (linkFrom b (c :: rest))) := by
  have hready := h.ready k
  have hnodup := h.nodup_pushed k
  rw [hpc] at hready hnodup
  obtain ⟨done, hnodes, hlinked⟩ := hready
  have hapart : (done ++ a :: c :: rest).Nodup := hnodes ▸ hnodup
  have ha : a ∉ done := fun hdone => (List.nodup_append'.1 hapart).2.2 hdone List.mem_cons_self
  refine h.link_goto ?_ (some c) ?_ ?_
  · rw [hpc]
    change a ∈ b.nodes
    rw [hnodes]
    exact List.mem_append_right _ List.mem_cons_self
  · rw [linkFrom_pushed, hpc]
    rfl
  · have hsplit : b.nodes = (done ++ [a]) ++ c :: rest := by rw [hnodes, List.append_assoc]; rfl
    exact linkFrom_ready hsplit (hlinked.concat ha c)

/-- The last node of the batch is linked to the head. -/
theorem Inv.writeLast {b : Batch α} {w : Option α} (h : Inv B s) (hpc : s.pc k = .pushWrite b w) :
    Inv B ((s.link b.last w).goto k (.pushSwap b w)) := by
  have hready := h.ready k
  have hnodup := h.nodup_pushed k
  rw [hpc] at hready hnodup
  have hapart : (b.nodes.dropLast ++ [b.last]).Nodup := b.nodes_eq ▸ hnodup
  have hlast : b.last ∉ b.nodes.dropLast := fun hin =>
    (List.nodup_append'.1 hapart).2.2 hin (List.mem_singleton_self _)
  refine h.link_goto ?_ w ?_ ⟨?_, ?_⟩
  · rw [hpc]
    exact b.last_mem
  · rw [hpc]
    rfl
  · change Chain.Linked s.next b.nodes at hready
    rw [b.nodes_eq] at hready ⊢
    exact hready.update_last hlast w
  · simp [Sys.link]

/-- A thread starts to push nodes that it holds. -/
theorem Inv.free {b : Batch α} (h : Inv B s) (hpc : s.pc k = .idle) (hnodup : b.nodes.Nodup)
    (hholds : b.nodes ⊆ s.holds k) : Inv B (s.enter k b) := by
  refine ⟨?_, ready_goto (fun j _ => h.ready j)
    (linkFrom_ready (List.nil_append _).symm (List.isChain_singleton _))⟩
  obtain ⟨l, hchain, hown⟩ := h.sound
  refine ⟨l, hchain, hown.of_perm fun o => ?_⟩
  cases o with
  | none => exact List.Perm.refl _
  | some j =>
      rcases eq_or_ne j k with rfl | hj
      · have hperm : (b.nodes ++ (s.holds j).diff b.nodes).Perm (s.holds j) :=
          List.subperm_append_diff_self_of_count_le fun c hc => by
            rw [List.count_eq_one_of_mem hnodup hc]
            exact List.count_pos_iff.2 (hholds hc)
        have hidle : (s.pc j).pushed = [] := by rw [hpc]; rfl
        simpa [Sys.places, Sys.owned, Sys.enter, Sys.goto, hidle] using
          List.perm_append_comm.trans hperm
      · simp [Sys.places, Sys.owned, Sys.enter, Sys.goto, Function.update_of_ne hj]

/-! ### One step -/

/-- What the next step of a call can do. -/
inductive Moves (s : Sys κ α) (k : κ) : Sys κ α → Prop
  /-- the thread loads, reads, or starts over -/
  | goto (pc : Pc α) (hpushed : pc.pushed = (s.pc k).pushed)
      (hready : (s.pc k).Ready s.next → pc.Ready s.next) : Moves s k (s.goto k pc)
  | pop (h₀ : α) (n : Option α) (hpc : s.pc k = .popSwap h₀ n) (hhead : s.head = some h₀) :
      Moves s k (s.take k h₀ n)
  | linkNode (b : Batch α) (a c : α) (rest : List α) (hpc : s.pc k = .pushLink b a c rest) :
      Moves s k ((s.link a (some c)).goto k (linkFrom b (c :: rest)))
  | writeLast (b : Batch α) (w : Option α) (hpc : s.pc k = .pushWrite b w) :
      Moves s k ((s.link b.last w).goto k (.pushSwap b w))
  | push (b : Batch α) (w : Option α) (hpc : s.pc k = .pushSwap b w) (hhead : s.head = w) :
      Moves s k (s.give k b)

theorem moves_of_go {reload : Bool} (h : s.go reload k = some s') : Moves s k s' := by
  have quiet : ∀ {pc pc' : Pc α}, s.pc k = pc → pc'.pushed = pc.pushed →
      (pc.Ready s.next → pc'.Ready s.next) → Moves s k (s.goto k pc') := by
    rintro pc pc' rfl hpushed hready
    exact .goto pc' hpushed hready
  unfold Sys.go at h
  cases hpc : s.pc k with
  | idle =>
      rw [hpc] at h
      cases h
  | popLoad =>
      rw [hpc] at h
      cases hhead : s.head with
      | none =>
          simp only [hhead, Option.some.injEq] at h
          exact h ▸ quiet hpc rfl id
      | some h₀ =>
          simp only [hhead, Option.some.injEq] at h
          exact h ▸ quiet hpc rfl id
  | popRead h₀ =>
      rw [hpc] at h
      exact Option.some.inj h ▸ quiet hpc rfl id
  | popSwap h₀ n =>
      simp only [hpc] at h
      split at h
      · next hhead => exact Option.some.inj h ▸ .pop h₀ n hpc hhead
      · exact Option.some.inj h ▸ quiet hpc rfl id
  | pushLink b a c rest =>
      rw [hpc] at h
      exact Option.some.inj h ▸ .linkNode b a c rest hpc
  | pushLoad b =>
      rw [hpc] at h
      exact Option.some.inj h ▸ quiet hpc rfl id
  | pushWrite b w =>
      rw [hpc] at h
      exact Option.some.inj h ▸ .writeLast b w hpc
  | pushSwap b w =>
      simp only [hpc] at h
      split at h
      · next hhead => exact Option.some.inj h ▸ .push b w hpc hhead
      · cases reload with
        | true => exact Option.some.inj h ▸ quiet hpc rfl And.left
        | false => exact Option.some.inj h ▸ quiet hpc rfl And.left

/-- The next step of a call keeps the invariant, if it is fresh. -/
theorem Inv.go (h : Inv B s) (hfresh : Fresh s (.go k)) (hmoves : Moves s k s') : Inv B s' := by
  cases hmoves with
  | goto pc hpushed hready => exact h.goto hpushed (hready (h.ready k))
  | pop h₀ n hpc hhead =>
      change (s.pc k).Fresh s at hfresh
      rw [hpc] at hfresh
      exact h.pop hpc hhead (hfresh hhead)
  | linkNode b a c rest hpc => exact h.linkNode hpc
  | writeLast b w hpc => exact h.writeLast hpc
  | push b w hpc hhead => exact h.push hpc hhead

/-- **Fresh steps keep the invariant.** -/
theorem Inv.step {reload : Bool} {act : Act κ α} (h : Inv B s) (hfresh : Fresh s act)
    (hstep : TreiberStack.step reload s act = some s') : Inv B s' := by
  cases act with
  | alloc k =>
      simp only [TreiberStack.step, Option.ite_none_right_eq_some, Option.some.injEq] at hstep
      obtain ⟨hpc, rfl⟩ := hstep
      refine h.goto ?_ trivial
      rw [hpc]
      rfl
  | free k b =>
      simp only [TreiberStack.step, Option.ite_none_right_eq_some, Option.some.injEq] at hstep
      obtain ⟨⟨hpc, hnodup, hholds⟩, rfl⟩ := hstep
      exact h.free hpc hnodup hholds
  | write k a w =>
      simp only [TreiberStack.step, Option.ite_none_right_eq_some, Option.some.injEq] at hstep
      obtain ⟨⟨hpc, ha⟩, rfl⟩ := hstep
      have ha' : a ∈ s.owned k := List.mem_append_left _ ha
      refine ⟨sound_link h.sound ha' w, fun j => ?_⟩
      rcases eq_or_ne j k with rfl | hj
      · change (s.pc j).Ready _
        rw [hpc]
        trivial
      · exact h.ready_link ha' w hj
  | go k => exact h.go hfresh (moves_of_go hstep)

/-- A pop that succeeds with a link that is out of date leaves a node with no owner, or with two:
the stack would have to be the nodes after the popped one, and then the link would be right. -/
theorem Inv.fresh {reload : Bool} {act : Act κ α} (h : Inv B s)
    (hsound : ∀ s', TreiberStack.step reload s act = some s' → s'.Sound B) : Fresh s act := by
  cases act with
  | alloc | free | write => trivial
  | go k =>
      change (s.pc k).Fresh s
      cases hpc : s.pc k with
      | popSwap h₀ n =>
          intro hhead
          simp only [TreiberStack.step, Sys.go, hpc, hhead, if_true] at hsound
          obtain ⟨l', hchain', hown'⟩ := hsound _ rfl
          obtain ⟨l, hchain, hown⟩ := h.sound
          rw [hhead] at hchain
          obtain ⟨t, rfl, ht⟩ := hchain.exists_cons
          have hpop := places_pop hown hpc
          have hmem : ∀ c, c ∈ t ↔ c ∈ l' := by
            intro c
            constructor
            · exact hpop.mem_of_others hown' (o := none) fun o ho => by cases o <;> trivial
            · exact hown'.mem_of_others hpop (o := none) fun o ho => by cases o <;> trivial
          obtain rfl := ht.eq_of_mem_iff hchain' hmem
          exact ht.start_unique hchain'
      | _ => trivial

end Invariant

/-! ### Whole runs -/

section Runs

variable {κ : Type v} {α : Type u} {ι : Type w} [DecidableEq κ] [DecidableEq α]

/-- The threads, when only some of the acts are possible, each under a name of its own; an act
without a counterpart is a call that returns at once. -/
def stepBy (reload : Bool) (act : ι → Option (Act κ α)) (s : Sys κ α) (i : ι) : Option (Sys κ α) :=
  match act i with
  | none => some s
  | some a => step reload s a

theorem run_stepBy {reload : Bool} {act : ι → Option (Act κ α)} {is : List ι}
    {as : List (Act κ α)} (h : is.map act = as.map some) (s : Sys κ α) :
    run (stepBy reload act) s is = run (step reload) s as := by
  induction is generalizing as s with
  | nil =>
      obtain rfl : as = [] := by simpa using h.symm
      rfl
  | cons i is ih =>
      cases as with
      | nil => cases h
      | cons a as =>
          obtain ⟨ha, has⟩ := List.cons.inj h
          have hact : stepBy reload act s i = step reload s a := by
            unfold stepBy
            rw [ha]
          cases hstep : step reload s a with
          | none => simp only [run, hact, hstep]
          | some s' => simp only [run, hact, hstep, ih has]

/-- The act, if there is one, meets the condition. -/
def MeetsBy (P : Sys κ α → Act κ α → Prop) (act : ι → Option (Act κ α)) (s : Sys κ α) (i : ι) :
    Prop :=
  ∀ a ∈ act i, P s a

instance (P : Sys κ α → Act κ α → Prop) [∀ s a, Decidable (P s a)] (act : ι → Option (Act κ α))
    (s : Sys κ α) (i : ι) : Decidable (MeetsBy P act s i) :=
  inferInstanceAs (Decidable (∀ a ∈ act i, P s a))

/-- **Every node has one owner exactly as long as every pop is fresh**: throughout a run every node
is reached once from the head or owned by one thread, and no pop takes a node that a thread owns,
exactly if no pop succeeds with a link that is out of date. -/
theorem sound_iff {B : Set α} {s : Sys κ α} (hs : Inv B s) (reload : Bool)
    (act : ι → Option (Act κ α)) (is : List ι) :
    (Throughout (stepBy reload act) (Sys.Sound B) s is ∧
      Along (stepBy reload act) (MeetsBy PopsUnowned act) s is) ↔
    Along (stepBy reload act) (MeetsBy Fresh act) s is := by
  have hkeep : ∀ s i s', Inv B s → MeetsBy Fresh act s i → stepBy reload act s i = some s' →
      Inv B s' := by
    intro s i s' h hfresh hstep
    unfold stepBy at hstep
    split at hstep
    · exact Option.some.inj hstep ▸ h
    · next a ha => exact h.step (hfresh a ha) hstep
  have hneeded : ∀ s i, Inv B s → (∀ s', stepBy reload act s i = some s' → s'.Sound B) →
      MeetsBy Fresh act s i := by
    intro s i h hsound a ha
    have hact : stepBy reload act s i = step reload s a := by
      unfold stepBy
      rw [Option.mem_def.1 ha]
    exact h.fresh fun s' hstep => hsound s' (hact.trans hstep)
  have hiff : Throughout (stepBy reload act) (Sys.Sound B) s is ↔
      Along (stepBy reload act) (MeetsBy Fresh act) s is :=
    throughout_iff_of_invariant hkeep (fun s h => h.sound) hneeded hs
  refine ⟨fun h => hiff.1 h.1, fun h => ⟨hiff.2 h, ?_⟩⟩
  exact along_of_invariant hkeep (fun s i hinv _ a _ => hinv.popsUnowned a) hs h

end Runs

end TreiberStack
