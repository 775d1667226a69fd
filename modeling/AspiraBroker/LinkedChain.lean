/-
**Chains of links.**

An intrusive list keeps no cells of its own: the link to the next node is stored in the node.  All
that represents the list is a pointer to its first node and the links, `next : α → Option α`, which
also hold whatever the owners of the other nodes have written there.  `Chain next p l` says that the
nodes reached from `p` are `l`, in this order, and that the last of them has no successor.

The links determine the list, so a chain never visits a node twice, and two chains over the same
links and with the same nodes are the same list.

Main definitions:

* `LinkedChain.Chain` — the nodes that are reached from a pointer;
* `LinkedChain.linkAll` — the nodes of a list are linked one to the next;
* `LinkedChain.visit` — the node that is reached by a number of links, on any list, be it endless;
* `LinkedChain.Shared` — nodes that are held or on a chain, each once.

Main results:

* `LinkedChain.Chain.unique`, `LinkedChain.Chain.nodup` — **a pointer reaches one list, and each
  node of it once**;
* `LinkedChain.Chain.eq_of_mem_iff` — chains with the same nodes are equal;
* `LinkedChain.Chain.update`, `LinkedChain.Chain.push`, `LinkedChain.Chain.exists_cons` — a write
  off the list, a node put in front, the first node taken off;
* `LinkedChain.Chain.of_pushes` — a loop that puts nodes in front, one after the other;
* `LinkedChain.Chain.splice` — a whole batch of nodes that are linked one to the next put in front;
* `LinkedChain.linkAll_update`, `LinkedChain.visit_update` — writes off the list change nothing;
* `LinkedChain.Shared.pop`, `LinkedChain.Shared.push`, `LinkedChain.Shared.write` — **a free list
  and its users**: a node is taken, given back, or written by who holds it.
-/

import Mathlib.Data.List.Chain
import Mathlib.Data.List.Nodup
import Mathlib.Logic.Function.Basic

set_option relaxedAutoImplicit false
set_option autoImplicit false

namespace LinkedChain

universe u

variable {α : Type u} {next next' : α → Option α} {p : Option α} {a b : α} {l l' : List α}

/-- The nodes reached from the pointer `p` along the links are `l`. -/
def Chain (next : α → Option α) : Option α → List α → Prop
  | p, [] => p = none
  | p, a :: l => p = some a ∧ Chain next (next a) l

namespace Chain

@[simp] theorem nil_iff : Chain next p [] ↔ p = none := Iff.rfl

@[simp] theorem cons_iff : Chain next p (a :: l) ↔ p = some a ∧ Chain next (next a) l := Iff.rfl

theorem cons (h : Chain next (next a) l) : Chain next (some a) (a :: l) := ⟨rfl, h⟩

/-- A chain that starts at a node is that node and a chain that starts at its link. -/
theorem exists_cons (h : Chain next (some a) l) :
    ∃ t, l = a :: t ∧ Chain next (next a) t := by
  cases l with
  | nil => cases h
  | cons b t =>
      obtain ⟨hb, ht⟩ := h
      obtain rfl := Option.some.inj hb
      exact ⟨t, rfl, ht⟩

/-- Where there is no first node there is no node. -/
theorem eq_nil (h : Chain next none l) : l = [] := by
  cases l with
  | nil => rfl
  | cons b t => cases h.1

/-- The chain is empty exactly if the pointer is null. -/
theorem eq_nil_iff (h : Chain next p l) : l = [] ↔ p = none := by
  constructor
  · rintro rfl
    exact h
  · rintro rfl
    exact h.eq_nil

/-- **A pointer reaches one list.** -/
theorem unique (h : Chain next p l) (h' : Chain next p l') : l = l' := by
  induction l generalizing p l' with
  | nil =>
      obtain rfl : p = none := h
      exact h'.eq_nil.symm
  | cons a l ih =>
      obtain ⟨rfl, hl⟩ := h
      obtain ⟨t, rfl, ht⟩ := h'.exists_cons
      rw [ih hl ht]

/-- From a node of the chain the rest of the chain is reached. -/
theorem suffix_of_mem (h : Chain next p l) (h' : Chain next (some a) l') (ha : a ∈ l) :
    l' <:+ l := by
  induction l generalizing p with
  | nil => cases ha
  | cons b l ih =>
      obtain ⟨rfl, hl⟩ := h
      rcases List.mem_cons.1 ha with rfl | ha
      · obtain rfl := hl.cons.unique h'
        exact List.suffix_rfl
      · exact (ih hl ha).trans (List.suffix_cons b l)

/-- **A chain visits no node twice.**  From the second visit on it would be as long as from the
first. -/
theorem nodup (h : Chain next p l) : l.Nodup := by
  induction l generalizing p with
  | nil => exact List.nodup_nil
  | cons a l ih =>
      refine List.nodup_cons.2 ⟨fun ha => ?_, ih h.2⟩
      have hlen := (h.2.suffix_of_mem h.2.cons ha).length_le
      rw [List.length_cons] at hlen
      omega

/-- Chains over the same links that have the same nodes are equal. -/
theorem eq_of_mem_iff {p' : Option α} (h : Chain next p l) (h' : Chain next p' l')
    (hmem : ∀ a, a ∈ l ↔ a ∈ l') : l = l' := by
  cases l with
  | nil =>
      refine (List.eq_nil_iff_forall_not_mem.2 fun a ha => ?_).symm
      exact List.not_mem_nil ((hmem a).2 ha)
  | cons a l =>
      have ha : a ∈ l' := (hmem a).1 List.mem_cons_self
      cases l' with
      | nil => cases ha
      | cons b l' =>
          have hb : b ∈ a :: l := (hmem b).2 List.mem_cons_self
          have hsuf := h'.suffix_of_mem h.2.cons ha
          have hsuf' := h.suffix_of_mem h'.2.cons hb
          exact hsuf.eq_of_length (le_antisymm hsuf.length_le hsuf'.length_le)

/-- A list is reached from one pointer. -/
theorem start_unique {p' : Option α} (h : Chain next p l) (h' : Chain next p' l) : p = p' := by
  cases l with
  | nil => exact h.trans h'.symm
  | cons a l => exact h.1.trans h'.1.symm

/-- Only the links of the nodes matter. -/
theorem congr (h : Chain next p l) (hnext : ∀ a ∈ l, next' a = next a) : Chain next' p l := by
  induction l generalizing p with
  | nil => exact h
  | cons a l ih =>
      refine ⟨h.1, ?_⟩
      rw [hnext a List.mem_cons_self]
      exact ih h.2 fun b hb => hnext b (List.mem_cons_of_mem a hb)

section Write

variable [DecidableEq α]

/-- A write into a node off the list leaves the list as it is. -/
theorem update (h : Chain next p l) (ha : a ∉ l) (w : Option α) :
    Chain (Function.update next a w) p l := by
  refine h.congr fun b hb => ?_
  have hne : b ≠ a := by
    rintro rfl
    exact ha hb
  exact Function.update_of_ne hne w next

/-- A node off the list is put in front of it by linking it to the first node. -/
theorem push (h : Chain next p l) (ha : a ∉ l) :
    Chain (Function.update next a p) (some a) (a :: l) := by
  refine ⟨rfl, ?_⟩
  rw [Function.update_self]
  exact h.update ha p

/-- A loop that puts one node after another in front of an empty list. -/
theorem of_pushes (links : ℕ → α → Option α) (head : ℕ → Option α) {node : ℕ → α}
    (hnode : Function.Injective node) (hempty : head 0 = none)
    (hlinks : ∀ i, links (i + 1) = Function.update (links i) (node i) (head i))
    (hhead : ∀ i, head (i + 1) = some (node i)) (n : ℕ) :
    Chain (links n) (head n) ((List.range n).map node).reverse := by
  induction n with
  | zero => exact hempty
  | succ n ih =>
      rw [hlinks, hhead, List.range_succ, List.map_append, List.reverse_append]
      refine ih.push fun hmem => ?_
      obtain ⟨i, hi, heq⟩ := List.mem_map.1 (List.mem_reverse.1 hmem)
      exact (List.mem_range.1 hi).ne (hnode heq)

end Write

/-! ### Batches -/

/-- The nodes of the list are linked one to the next. -/
def Linked (next : α → Option α) (l : List α) : Prop := l.IsChain fun a b => next a = some b

/-- A linked batch whose last node links to a chain is put in front of it. -/
theorem splice {first : α} {rest : List α} (hlinked : Linked next (first :: rest))
    (hlast : Chain next (next (rest.getLastD first)) l) :
    Chain next (some first) (first :: rest ++ l) := by
  induction rest generalizing first with
  | nil => exact ⟨rfl, hlast⟩
  | cons b rest ih =>
      obtain ⟨hb, hrest⟩ := List.isChain_cons_cons.1 hlinked
      refine ⟨rfl, ?_⟩
      rw [hb]
      rw [List.getLastD_cons] at hlast
      exact ih hrest hlast

/-- Writes into other nodes leave a batch linked; the link of the last node does not matter. -/
theorem Linked.congr (h : Linked next l) (hnext : ∀ a ∈ l.dropLast, next' a = next a) :
    Linked next' l := by
  induction l with
  | nil => exact List.isChain_nil
  | cons a l ih =>
      cases l with
      | nil => exact List.isChain_singleton a
      | cons b l =>
          obtain ⟨hb, hl⟩ := List.isChain_cons_cons.1 h
          refine List.isChain_cons_cons.2 ⟨?_, ih hl fun c hc => hnext c ?_⟩
          · rw [hnext a (by simp), hb]
          · rw [List.dropLast_cons_cons]
            exact List.mem_cons_of_mem a hc

/-- The link of the last node is written. -/
theorem Linked.update_last [DecidableEq α] (h : Linked next (l ++ [a])) (ha : a ∉ l)
    (w : Option α) : Linked (Function.update next a w) (l ++ [a]) := by
  refine h.congr fun b hb => ?_
  have hne : b ≠ a := by
    rintro rfl
    rw [List.dropLast_concat] at hb
    exact ha hb
  exact Function.update_of_ne hne w next

/-- The batch grows by the node that its last one is linked to. -/
theorem Linked.concat [DecidableEq α] (h : Linked next (l ++ [a])) (ha : a ∉ l) (b : α) :
    Linked (Function.update next a (some b)) (l ++ [a] ++ [b]) := by
  refine List.isChain_append.2 ⟨h.update_last ha (some b), List.isChain_singleton b, ?_⟩
  intro x hx y hy
  obtain rfl : a = x := by simpa using hx
  obtain rfl : b = y := by simpa using hy
  exact Function.update_self a (some b) next

end Chain

/-! ### Linking and walking -/

/-- The links after each node of the list but the last was linked to the one behind it, from the
first one on. -/
def linkAll [DecidableEq α] (next : α → Option α) : List α → α → Option α
  | a :: b :: l => linkAll (Function.update next a (some b)) (b :: l)
  | [_] | [] => next

/-- The node that is reached from the pointer by `i` links. -/
def visit (next : α → Option α) : ℕ → Option α → Option α
  | 0, p => p
  | i + 1, p => visit next i (p.bind next)

@[simp] theorem visit_none (next : α → Option α) (i : ℕ) : visit next i none = none := by
  induction i with
  | zero => rfl
  | succ i ih => exact ih

section Walk

variable [DecidableEq α]

/-- A write into a node off the list and the linking of the list can change places. -/
theorem linkAll_update (ha : a ∉ l) (w : Option α) :
    linkAll (Function.update next a w) l = Function.update (linkAll next l) a w := by
  induction l generalizing next with
  | nil => rfl
  | cons b l ih =>
      obtain ⟨hb, hl⟩ := not_or.1 (mt List.mem_cons.2 ha)
      cases l with
      | nil => rfl
      | cons c l =>
          rw [linkAll, Function.update_comm hb, ih hl]
          rfl

/-- A write into a node that is never reached changes nothing on the way. -/
theorem visit_update (ha : ∀ j, visit next j p ≠ some a) (w : Option α) (i : ℕ) :
    visit (Function.update next a w) i p = visit next i p := by
  induction i generalizing p with
  | zero => rfl
  | succ i ih =>
      have hlink : p.bind (Function.update next a w) = p.bind next := by
        cases p with
        | none => rfl
        | some b =>
            have hne : b ≠ a := fun h => ha 0 (congrArg some h)
            exact Function.update_of_ne hne w next
      rw [visit, hlink]
      exact ih fun j => ha (j + 1)

end Walk

/-! ### A free list and its users -/

/-- The nodes of `all` are the ones held and the ones on the chain from `p`, each once. -/
structure Shared (next : α → Option α) (p : Option α) (held l all : List α) : Prop where
  chain : Chain next p l
  parts : (held ++ l).Perm all
  nodup : all.Nodup

namespace Shared

variable {held all : List α}

theorem nodup_parts (h : Shared next p held l all) : (held ++ l).Nodup :=
  h.parts.nodup_iff.2 h.nodup

theorem held_nodup (h : Shared next p held l all) : held.Nodup :=
  (List.nodup_append'.1 h.nodup_parts).1

theorem length_eq (h : Shared next p held l all) : held.length + l.length = all.length := by
  rw [← List.length_append, h.parts.length_eq]

/-- What is held is not on the chain. -/
theorem not_mem_of_held (h : Shared next p held l all) (ha : a ∈ held) : a ∉ l :=
  fun hl => (List.nodup_append'.1 h.nodup_parts).2.2 ha hl

/-- The first node of the chain is taken. -/
theorem pop (h : Shared next (some a) held l all) :
    ∃ t, l = a :: t ∧ Shared next (next a) (a :: held) t all := by
  obtain ⟨t, rfl, ht⟩ := h.chain.exists_cons
  exact ⟨t, rfl, ht, List.perm_middle.symm.trans h.parts, h.nodup⟩

variable [DecidableEq α]

/-- A node that is held is given back. -/
theorem push (h : Shared next p held l all) (ha : a ∈ held) :
    Shared (Function.update next a p) (some a) (held.erase a) (a :: l) all := by
  refine ⟨h.chain.push (h.not_mem_of_held ha), List.Perm.trans ?_ h.parts, h.nodup⟩
  exact List.perm_middle.trans ((List.perm_cons_erase ha).symm.append_right l)

/-- What is written into a node that is held does not concern the chain. -/
theorem write (h : Shared next p held l all) (ha : a ∈ held) (w : Option α) :
    Shared (Function.update next a w) p held l all :=
  ⟨h.chain.update (h.not_mem_of_held ha) w, h.parts, h.nodup⟩

end Shared

end LinkedChain
