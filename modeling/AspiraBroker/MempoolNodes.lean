/-
**What a fresh order node contains.**

`bt_mempool_alloc_order` has two ways to come by a node, and the caller cannot tell which one it
was.  A node from the free list is cleared before it is returned.  A node that is bumped off the
arena is returned as it is: the memory behind the offset has never been used, and the platform gave
it zeroed.  After `bt_mempool_arena_reset` the second reason is no longer true, since the offset is
back at zero and the nodes of before the reset are handed out again with what their holders, and the
free list, have left in them.

The module adds the rest of the nodes, 64 bytes of order and the `prev` pointer, to the arena of
`AspiraBroker/MemoryPool.lean`, which has the `next` pointers.  Nodes do not overlap, so that the
memory is a map from the addresses of nodes to their contents.

Main definitions:

* `MempoolNodes.Rest` — a node without its `next` field;
* `MempoolNodes.Store`, `MempoolNodes.step` — the arena with the contents of its nodes;
* `MempoolNodes.ReturnsBlank` — the node that is returned is zero;
* `MempoolNodes.ReusesBlank` — a node that is bumped for the second time was left zero.

Main results:

* `MempoolNodes.step_kept` — what lies beyond the highest offset so far is zero;
* `MempoolNodes.nodes_blank_iff` — **every node is returned zero exactly as long as the nodes bumped
  again after a reset were left zero**;
* `MempoolNodes.order_survives_reset` — an order that shows up in a fresh node.
-/

import AspiraBroker.MemoryPool

set_option relaxedAutoImplicit false
set_option autoImplicit false

namespace MempoolNodes

open AlignedCells MemoryPool Transition

/-! ### The contents of nodes -/

/-- A `bt_order_node_t` without its `next` field: the bytes of the order, and `prev`. -/
structure Rest where
  order : Fin 64 → UInt8
  prev : Option ℕ

/-- All bytes are zero. -/
def Rest.zero : Rest := ⟨fun _ => 0, none⟩

/-- The arena with its thread, the rest of the nodes, and the highest offset reached so far. -/
structure Store where
  client : Client
  rest : ℕ → Rest
  top : ℕ

/-- What the thread does; it writes whole nodes. -/
inductive Op
  | allocOrder
  | freeOrder (p : ℕ)
  | write (p : ℕ) (next : Option ℕ) (rest : Rest)
  | reset

/-- The `memset` of `bt_mempool_alloc_order`: only a node from the free list is cleared. -/
def Store.recycle (s : Store) : ℕ → Rest :=
  match s.client.arena.freeOrders with
  | some node => Function.update s.rest node Rest.zero
  | none => s.rest

/-- One operation. -/
def step (s : Store) : Op → Option Store
  | .allocOrder =>
      (MemoryPool.step s.client .allocOrder).map fun c =>
        ⟨c, s.recycle, max s.top c.arena.offset⟩
  | .freeOrder p => (MemoryPool.step s.client (.freeOrder p)).map fun c => { s with client := c }
  | .write p next rest =>
      (MemoryPool.step s.client (.write p next)).map fun c =>
        { s with client := c, rest := Function.update s.rest p rest }
  | .reset => (MemoryPool.step s.client .reset).map fun c => { s with client := c }

/-- A fresh arena over zeroed memory. -/
def start (mem : Region) : Store := ⟨MemoryPool.start mem fun _ => none, fun _ => Rest.zero, 0⟩

/-- All bytes of the node are zero. -/
def Store.Blank (s : Store) (p : ℕ) : Prop := s.client.arena.next p = none ∧ s.rest p = Rest.zero

/-- The node that an alloc returns is zero at that moment. -/
def ReturnsBlank (s : Store) : Op → Prop
  | .allocOrder => ∀ p, (btMempoolAllocOrder s.client.arena).2 = some p →
      ∀ s', step s .allocOrder = some s' → s'.Blank p
  | _ => True

/-- A node that is bumped although the offset has been beyond it was left zero. -/
def ReusesBlank (s : Store) : Op → Prop
  | .allocOrder => s.client.arena.freeOrders = none → s.client.arena.offset < s.top →
      s.Blank (s.client.arena.base + s.client.arena.offset)
  | _ => True

/-! ### The invariant -/

/-- The arena is in order, and what lies beyond the highest offset has never been written. -/
structure Kept (mem : Region) (s : Store) : Prop where
  tidy : ∃ l, Tidy mem s.client l
  le_top : s.client.arena.offset ≤ s.top
  top : ∃ n, s.top = n * 128
  room : s.top ≤ mem.size
  unused : ∀ p, mem.base + s.top ≤ p → s.Blank p

theorem start_kept (mem : Region) : Kept mem (start mem) :=
  ⟨⟨[], start_tidy mem _⟩, le_rfl, ⟨0, rfl⟩, Nat.zero_le _, fun _ _ => ⟨rfl, rfl⟩⟩

section Steps

variable {mem : Region} {s s' : Store}

/-- Whatever is held lies in front of the highest offset. -/
theorem Kept.held_lt (h : Kept mem s) {p : ℕ} (hp : p ∈ s.client.held) : p < mem.base + s.top := by
  obtain ⟨l, hl⟩ := h.tidy
  have hle := h.le_top
  have hoffset := hl.offset
  have hmem : p ∈ s.client.bumped := hl.parts.subset (List.mem_append_left _ hp)
  rw [hl.bumped] at hmem
  obtain ⟨-, hhi⟩ := cells_bounds hmem
  omega

/-- A step that keeps the offset below the top, and writes only into a node that is held. -/
theorem Kept.write (h : Kept mem s) {c : Client} {rest : ℕ → Rest} {p : ℕ}
    (htidy : ∃ l, Tidy mem c l) (hoffset : c.arena.offset ≤ s.top) (hp : p ∈ s.client.held)
    (hnext : ∀ q, q ≠ p → c.arena.next q = s.client.arena.next q)
    (hrest : ∀ q, q ≠ p → rest q = s.rest q) : Kept mem ⟨c, rest, s.top⟩ where
  tidy := htidy
  le_top := hoffset
  top := h.top
  room := h.room
  unused q hq := by
    have hne : q ≠ p := fun h' => absurd (h.held_lt hp) (Nat.not_lt.2 (h' ▸ hq))
    obtain ⟨hblank, hblank'⟩ := h.unused q hq
    exact ⟨(hnext q hne).trans hblank, (hrest q hne).trans hblank'⟩

/-- An alloc from the free list. -/
theorem Kept.recycled (h : Kept mem s) {node : ℕ} (hlist : s.client.arena.freeOrders = some node)
    (hstep : step s .allocOrder = some s') : Kept mem s' ∧ s'.Blank node := by
  obtain ⟨l, hl⟩ := h.tidy
  simp only [step, Option.map_eq_some_iff] at hstep
  obtain ⟨c, hc, rfl⟩ := hstep
  have htidy := step_tidy hl hc
  obtain rfl := Option.some.inj hc
  have hrecycle : s.recycle = Function.update s.rest node Rest.zero := by
    rw [Store.recycle, hlist]
  simp only [btMempoolAllocOrder, hlist] at htidy ⊢
  rw [hrecycle, max_eq_left h.le_top]
  refine ⟨⟨htidy, h.le_top, h.top, h.room, fun p hp => ?_⟩, ?_⟩
  · obtain ⟨hnext, hrest⟩ := h.unused p hp
    by_cases hpn : p = node
    · subst hpn
      exact ⟨Function.update_self .., Function.update_self ..⟩
    · exact ⟨(Function.update_of_ne hpn ..).trans hnext, (Function.update_of_ne hpn ..).trans hrest⟩
  · exact ⟨Function.update_self .., Function.update_self ..⟩

/-- An alloc from the end of the arena leaves the contents of all nodes alone. -/
theorem Kept.bumped (h : Kept mem s) (hlist : s.client.arena.freeOrders = none)
    (hstep : step s .allocOrder = some s') :
    Kept mem s' ∧ ∀ p, s'.Blank p ↔ s.Blank p := by
  obtain ⟨l, hl⟩ := h.tidy
  simp only [step, Option.map_eq_some_iff] at hstep
  obtain ⟨c, hc, rfl⟩ := hstep
  obtain ⟨l', hl'⟩ := step_tidy hl hc
  have hnext : c.arena.next = s.client.arena.next := by
    obtain rfl := Option.some.inj hc
    simp only [btMempoolAllocOrder, hlist, hl.bump_eq]
    split <;> rfl
  have hrecycle : s.recycle = s.rest := by rw [Store.recycle, hlist]
  have hblank (p : ℕ) : (⟨c, s.recycle, max s.top c.arena.offset⟩ : Store).Blank p ↔ s.Blank p := by
    unfold Store.Blank
    rw [hnext, hrecycle]
  have hmax : max s.top c.arena.offset = s.top ∨ max s.top c.arena.offset = c.arena.offset :=
    max_choice _ _
  refine ⟨⟨⟨l', hl'⟩, le_max_right _ _, ?_, max_le h.room hl'.room, fun p hp => ?_⟩, hblank⟩
  · change ∃ n, max s.top c.arena.offset = n * 128
    rcases hmax with hmax | hmax
    · rw [hmax]
      exact h.top
    · exact ⟨_, hmax.trans hl'.offset⟩
  · refine (hblank p).2 (h.unused p ((Nat.add_le_add_left (le_max_left _ _) _).trans hp))

/-- **What lies beyond the highest offset stays zero.** -/
theorem step_kept (h : Kept mem s) {op : Op} (hstep : step s op = some s') : Kept mem s' := by
  obtain ⟨l, hl⟩ := id h.tidy
  cases op with
  | allocOrder =>
      cases hlist : s.client.arena.freeOrders with
      | some node => exact (h.recycled hlist hstep).1
      | none => exact (h.bumped hlist hstep).1
  | freeOrder p =>
      simp only [step, Option.map_eq_some_iff] at hstep
      obtain ⟨c, hc, rfl⟩ := hstep
      have htidy := step_tidy hl hc
      simp only [MemoryPool.step, Option.ite_none_right_eq_some, Option.some.injEq] at hc
      obtain ⟨hp, rfl⟩ := hc
      exact h.write htidy h.le_top hp (fun q hq => Function.update_of_ne hq ..) fun q _ => rfl
  | write p next rest =>
      simp only [step, Option.map_eq_some_iff] at hstep
      obtain ⟨c, hc, rfl⟩ := hstep
      have htidy := step_tidy hl hc
      simp only [MemoryPool.step, Option.ite_none_right_eq_some, Option.some.injEq] at hc
      obtain ⟨hp, rfl⟩ := hc
      exact h.write htidy h.le_top hp (fun q hq => Function.update_of_ne hq ..)
        fun q hq => Function.update_of_ne hq ..
  | reset =>
      simp only [step, Option.map_eq_some_iff] at hstep
      obtain ⟨c, hc, rfl⟩ := hstep
      have htidy := step_tidy hl hc
      obtain rfl := Option.some.inj hc
      exact ⟨htidy, Nat.zero_le _, h.top, h.room, h.unused⟩

/-! ### Which nodes are returned zero -/

/-- What an alloc returns, when there is no free node. -/
theorem Kept.result (h : Kept mem s) (hlist : s.client.arena.freeOrders = none) :
    (btMempoolAllocOrder s.client.arena).2 =
      if mem.size < s.client.arena.offset + 128 then none
      else some (mem.base + s.client.arena.offset) := by
  obtain ⟨l, hl⟩ := h.tidy
  simp only [btMempoolAllocOrder, hlist, hl.bump_eq]
  split <;> rfl

/-- There is room for a node that has been bumped before. -/
theorem Kept.room_again (h : Kept mem s) (hlt : s.client.arena.offset < s.top) :
    ¬ mem.size < s.client.arena.offset + 128 := by
  obtain ⟨l, hl⟩ := h.tidy
  obtain ⟨n, hn⟩ := h.top
  have hoffset := hl.offset
  have hroom := h.room
  omega

/-- A bumped node is zero if it was left zero, or never used. -/
theorem Kept.returnsBlank_iff (h : Kept mem s) (op : Op) :
    ReturnsBlank s op ↔ ReusesBlank s op := by
  obtain ⟨l, hl⟩ := id h.tidy
  cases op with
  | allocOrder =>
      obtain ⟨s', hs'⟩ : ∃ s', step s .allocOrder = some s' := ⟨_, rfl⟩
      cases hlist : s.client.arena.freeOrders with
      | some node =>
          refine iff_of_true (fun p hp t ht => ?_) fun hnone => ?_
          · have hnode : (btMempoolAllocOrder s.client.arena).2 = some node := by
              simp only [btMempoolAllocOrder, hlist]
            obtain rfl := Option.some.inj (hnode.symm.trans hp)
            exact (h.recycled hlist ht).2
          · rw [hlist] at hnone
            cases hnone
      | none =>
          have hresult := h.result hlist
          constructor
          · intro hreturns _ hlt
            rw [if_neg (h.room_again hlt)] at hresult
            rw [hl.base]
            exact ((h.bumped hlist hs').2 _).1 (hreturns _ hresult s' hs')
          · intro hreuses p hp t ht
            refine ((h.bumped hlist ht).2 p).2 ?_
            rw [hresult, Option.ite_none_left_eq_some] at hp
            obtain rfl := Option.some.inj hp.2
            by_cases hlt : s.client.arena.offset < s.top
            · rw [← hl.base]
              exact hreuses hlist hlt
            · exact h.unused _ (Nat.add_le_add_left (Nat.le_of_not_lt hlt) _)
  | freeOrder p => exact Iff.rfl
  | write p next rest => exact Iff.rfl
  | reset => exact Iff.rfl

end Steps

/-- **Every node is returned zero exactly as long as the nodes bumped again after a reset were left
zero**: for every arena over zeroed memory and every sequence of allocs, frees of held nodes,
arbitrary writes into held nodes and resets. -/
theorem nodes_blank_iff (mem : Region) (ops : List Op) :
    Along step ReturnsBlank (start mem) ops ↔ Along step ReusesBlank (start mem) ops :=
  along_iff_of_invariant (I := Kept mem) (fun _ _ _ h _ hstep => step_kept h hstep)
    (fun _ op h => h.returnsBlank_iff op) (start_kept mem)

/-- Memory for one page. -/
def page : Region := ⟨8192, 4096, by decide, by decide⟩

/-- An order whose first byte is 1. -/
def someOrder : Rest := ⟨fun i => if i = 0 then 1 else 0, none⟩

/-- A node is filled in, the arena is reset, and the next alloc returns the node with the order. -/
theorem order_survives_reset :
    (∃ s s', run step (start page) [.allocOrder, .write 8192 none someOrder, .reset] = some s ∧
      (btMempoolAllocOrder s.client.arena).2 = some 8192 ∧ step s .allocOrder = some s' ∧
      s'.rest 8192 = someOrder) ∧
    ¬ Along step ReturnsBlank (start page)
      [.allocOrder, .write 8192 none someOrder, .reset, .allocOrder] := by
  refine ⟨⟨_, _, rfl, rfl, rfl, rfl⟩, fun h => ?_⟩
  have hreturns := (((h.2 _ rfl).2 _ rfl).2 _ rfl).1
  have hzero : someOrder = Rest.zero := (hreturns 8192 rfl _ rfl).2
  exact absurd (congrFun (congrArg Rest.order hzero) 0) (by decide)

end MempoolNodes
