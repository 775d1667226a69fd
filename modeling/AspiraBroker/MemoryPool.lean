/-
**The order nodes of a memory pool.**

Each arena of the memory pool hands out order nodes of 80 bytes, rounded up to 128.  A fresh node is
bumped off the arena; a freed node goes on a list that is linked through the `next` fields of the
nodes and is handed out again, cleared, before anything is bumped.  A reset forgets everything at
once.  The client here frees nodes that it holds and writes into their `next` fields as it likes,
since the order book uses the same fields.

The counter of free nodes has 32 bits.  An arena of 512 GiB has room for `2 ^ 32` nodes, and once
all of them are free the counter is back at zero; in every smaller arena it is exact.

Main definitions:

* `MemoryPool.Arena`, `MemoryPool.btMempoolAlloc`, `MemoryPool.btMempoolAllocOrder`,
  `MemoryPool.btMempoolFreeOrder`, `MemoryPool.btMempoolArenaReset` — the arena;
* `MemoryPool.Client`, `MemoryPool.step` — the arena in the hands of its thread;
* `MemoryPool.Recycled` — the nodes held and free are the nodes bumped, and do not overlap;
* `MemoryPool.Tidy` — the invariant.

Main results:

* `MemoryPool.step_tidy` — one call keeps the invariant;
* `MemoryPool.nodes_never_alias` — **recycling never aliases**, for every arena and every run.
-/

import AspiraBroker.AlignedCells
import AspiraBroker.LinkedChain
import AspiraBroker.TransitionRuns

set_option relaxedAutoImplicit false
set_option autoImplicit false

namespace MemoryPool

open AlignedCells LinkedChain Transition

/-! ### The arena -/

/-- `bt_mempool_arena_t`, with the `next` fields of the nodes.  The counters have 32 bits. -/
structure Arena where
  base : ℕ
  size : ℕ
  offset : ℕ
  freeOrders : Option ℕ
  allocCount : ℕ
  freeCount : ℕ
  next : ℕ → Option ℕ

/-- `sizeof(bt_order_node_t)`: an order of 64 bytes and two pointers. -/
def orderNodeSize : ℕ := 80

/-- `bt_mempool_alloc`: the arena after the call, and the result. -/
def btMempoolAlloc (a : Arena) (size : ℕ) : Arena × Option ℕ :=
  let size := cacheLines size
  if a.size < (a.offset + size) % 2 ^ 64 then (a, none)
  else
    ({ a with
        offset := (a.offset + size) % 2 ^ 64
        allocCount := (a.allocCount + 1) % 2 ^ 32 }, some (a.base + a.offset))

/-- `bt_mempool_alloc_order`. -/
def btMempoolAllocOrder (a : Arena) : Arena × Option ℕ :=
  match a.freeOrders with
  | some node =>
      ({ a with
          freeOrders := a.next node
          allocCount := (a.allocCount + 1) % 2 ^ 32
          freeCount := (a.freeCount + (2 ^ 32 - 1)) % 2 ^ 32
          -- the node is cleared
          next := Function.update a.next node none }, some node)
  | none => btMempoolAlloc a orderNodeSize

/-- `bt_mempool_free_order`. -/
def btMempoolFreeOrder (a : Arena) (node : Option ℕ) : Arena :=
  match node with
  | none => a
  | some node =>
      { a with
        next := Function.update a.next node a.freeOrders
        freeOrders := some node
        freeCount := (a.freeCount + 1) % 2 ^ 32 }

/-- `bt_mempool_arena_reset`. -/
def btMempoolArenaReset (a : Arena) : Arena :=
  { a with offset := 0, freeOrders := none, allocCount := 0, freeCount := 0 }

/-- The arena over `mem` as `bt_mempool_init` leaves it; the memory holds `next`. -/
def Arena.fresh (mem : Region) (next : ℕ → Option ℕ) : Arena :=
  ⟨mem.base, mem.size, 0, none, 0, 0, next⟩

/-! ### The client -/

/-- The arena, the nodes its thread holds, and the nodes bumped since the last reset. -/
structure Client where
  arena : Arena
  held : List ℕ
  bumped : List ℕ

/-- What the thread does. -/
inductive Op
  | allocOrder
  /-- frees a node it holds -/
  | freeOrder (p : ℕ)
  /-- writes the `next` field of a node it holds -/
  | write (p : ℕ) (w : Option ℕ)
  | reset

/-- One operation.  A node is bumped when there is no free one. -/
def step (c : Client) : Op → Option Client
  | .allocOrder =>
      let r := btMempoolAllocOrder c.arena
      some ⟨r.1, r.2.toList ++ c.held,
        if c.arena.freeOrders = none then c.bumped ++ r.2.toList else c.bumped⟩
  | .freeOrder p =>
      if p ∈ c.held then
        some { c with arena := btMempoolFreeOrder c.arena (some p), held := c.held.erase p }
      else none
  | .write p w =>
      if p ∈ c.held then some { c with arena.next := Function.update c.arena.next p w } else none
  | .reset => some ⟨btMempoolArenaReset c.arena, [], []⟩

/-- The thread with a fresh arena. -/
def start (mem : Region) (next : ℕ → Option ℕ) : Client := ⟨Arena.fresh mem next, [], []⟩

/-- The nodes held and the nodes on the free list `l` are exactly the nodes bumped since the last
reset, which are disjoint cells of 128 bytes. -/
structure Recycled (mem : Region) (c : Client) (l : List ℕ) : Prop where
  chain : Chain c.arena.next c.arena.freeOrders l
  parts : (c.held ++ l).Perm c.bumped
  nodup : (c.held ++ l).Nodup
  inside : ∀ p ∈ c.bumped, bytes p 128 ⊆ bytes mem.base c.arena.offset
  within : bytes mem.base c.arena.offset ⊆ bytes mem.base mem.size
  apart : ∀ p ∈ c.bumped, ∀ q ∈ c.bumped, p ≠ q → Disjoint (bytes p 128) (bytes q 128)
  freeCount : c.arena.freeCount = l.length % 2 ^ 32
  /-- below 512 GiB the counter is exact -/
  exact_below : mem.size < 2 ^ 39 → c.arena.freeCount = l.length
  null_iff : (btMempoolAllocOrder c.arena).2 = none ↔ l = [] ∧ mem.size < c.arena.offset + 128

/-! ### The invariant -/

/-- The bumped nodes are the first cells of the arena, the free list and the held nodes are the
bumped ones, and the counter counts the free list as far as it can. -/
structure Tidy (mem : Region) (c : Client) (l : List ℕ) : Prop where
  base : c.arena.base = mem.base
  size : c.arena.size = mem.size
  bumped : c.bumped = cells mem.base 128 c.bumped.length
  offset : c.arena.offset = c.bumped.length * 128
  room : c.arena.offset ≤ mem.size
  chain : Chain c.arena.next c.arena.freeOrders l
  parts : (c.held ++ l).Perm c.bumped
  freeCount : c.arena.freeCount = l.length % 2 ^ 32

/-- An order node takes two cache lines. -/
theorem cacheLines_orderNodeSize : cacheLines orderNodeSize = 128 := by decide

theorem start_tidy (mem : Region) (next : ℕ → Option ℕ) : Tidy mem (start mem next) [] :=
  ⟨rfl, rfl, rfl, rfl, Nat.zero_le _, rfl, List.Perm.refl _, rfl⟩

namespace Tidy

variable {mem : Region} {c c' : Client} {l : List ℕ} {p : ℕ}

/-- The arena is a free list with its users. -/
theorem shared (h : Tidy mem c l) :
    Shared c.arena.next c.arena.freeOrders c.held l c.bumped := by
  refine ⟨h.chain, h.parts, ?_⟩
  rw [h.bumped]
  exact cells_nodup (by decide)

/-- The next node does not wrap around: the first page is not part of any arena. -/
theorem bump_lt (h : Tidy mem c l) : c.arena.offset + 128 < 2 ^ 64 := by
  have := h.room
  have := mem.page
  have := mem.top
  omega

/-- What a bump does. -/
theorem bump_eq (h : Tidy mem c l) : btMempoolAlloc c.arena orderNodeSize =
    if mem.size < c.arena.offset + 128 then (c.arena, none)
    else ({ c.arena with
      offset := c.arena.offset + 128
      allocCount := (c.arena.allocCount + 1) % 2 ^ 32 }, some (mem.base + c.arena.offset)) := by
  simp only [btMempoolAlloc, cacheLines_orderNodeSize, Nat.mod_eq_of_lt h.bump_lt, h.size, h.base]

/-- An alloc returns `NULL` exactly if no node is free and there is no room for another. -/
theorem null_iff (h : Tidy mem c l) :
    (btMempoolAllocOrder c.arena).2 = none ↔ l = [] ∧ mem.size < c.arena.offset + 128 := by
  rw [h.chain.eq_nil_iff]
  unfold btMempoolAllocOrder
  split
  · next node hnode => simp [hnode]
  · next hnone =>
      rw [h.bump_eq]
      split
      · next hfull => simp [hnone, hfull]
      · next hroom => simp [hroom]

/-- Where no node is free and there is room, the next cell is bumped. -/
theorem bump (h : Tidy mem c []) (hroom : ¬ mem.size < c.arena.offset + 128) :
    ∃ c', step c .allocOrder = some c' ∧ Tidy mem c' [] ∧
      c'.bumped.length = c.bumped.length + 1 := by
  have hnone : c.arena.freeOrders = none := h.chain
  have hcell : mem.base + c.arena.offset = cell mem.base 128 c.bumped.length := by
    rw [h.offset]
    rfl
  refine ⟨_, rfl, ?_⟩
  unfold btMempoolAllocOrder
  simp only [hnone, h.bump_eq, if_neg hroom, if_true, Option.toList_some, List.length_append,
    List.length_singleton, and_true]
  refine ⟨h.base, h.size, ?_, ?_, Nat.le_of_not_lt hroom, rfl, ?_, h.freeCount⟩
  · simp only [List.length_append, List.length_singleton]
    rw [cells_succ, ← h.bumped, hcell]
  · simp only [List.length_append, List.length_singleton]
    rw [h.offset]
    omega
  · have hparts : c.held.Perm c.bumped := by simpa using h.parts
    simpa using (hparts.cons (mem.base + c.arena.offset)).trans
      (List.perm_append_singleton _ c.bumped).symm

/-- An alloc hands out the first free node, or bumps one. -/
theorem allocOrder (h : Tidy mem c l) (hstep : step c .allocOrder = some c') :
    ∃ l', Tidy mem c' l' := by
  have hshared := h.shared
  cases hlist : c.arena.freeOrders with
  | some node =>
      obtain rfl := Option.some.inj hstep
      rw [hlist] at hshared
      obtain ⟨t, rfl, hpop⟩ := hshared.pop
      -- the node is cleared when it is already held
      have hcleared := hpop.write List.mem_cons_self none
      simp only [btMempoolAllocOrder, hlist, reduceCtorEq, if_false]
      refine ⟨t, h.base, h.size, h.bumped, h.offset, h.room, hcleared.chain, hcleared.parts, ?_⟩
      have := h.freeCount
      rw [List.length_cons] at this
      change (c.arena.freeCount + (2 ^ 32 - 1)) % 2 ^ 32 = t.length % 2 ^ 32
      omega
  | none =>
      rw [hlist] at hshared
      obtain rfl := hshared.chain.eq_nil
      by_cases hroom : mem.size < c.arena.offset + 128
      · -- nothing is handed out
        obtain rfl := Option.some.inj hstep
        refine ⟨[], ?_⟩
        simpa [btMempoolAllocOrder, hlist, h.bump_eq, hroom] using h
      · obtain ⟨c'', hstep', h', -⟩ := h.bump hroom
        obtain rfl := Option.some.inj (hstep.symm.trans hstep')
        exact ⟨[], h'⟩

/-- A free puts a held node in front of the list. -/
theorem freeOrder (h : Tidy mem c l) (hp : p ∈ c.held) :
    Tidy mem { c with arena := btMempoolFreeOrder c.arena (some p), held := c.held.erase p }
      (p :: l) := by
  have hshared := h.shared.push hp
  refine ⟨h.base, h.size, h.bumped, h.offset, h.room, hshared.chain, hshared.parts, ?_⟩
  have := h.freeCount
  change (c.arena.freeCount + 1) % 2 ^ 32 = (l.length + 1) % 2 ^ 32
  omega

/-- What the thread writes into a node it holds does not concern the free list. -/
theorem write (h : Tidy mem c l) (hp : p ∈ c.held) (w : Option ℕ) :
    Tidy mem { c with arena.next := Function.update c.arena.next p w } l :=
  ⟨h.base, h.size, h.bumped, h.offset, h.room, (h.shared.write hp w).chain, h.parts, h.freeCount⟩

theorem reset (h : Tidy mem c l) : Tidy mem ⟨btMempoolArenaReset c.arena, [], []⟩ [] :=
  ⟨h.base, h.size, rfl, rfl, Nat.zero_le _, rfl, List.Perm.refl _, rfl⟩

/-- The invariant says what recycling is to guarantee. -/
theorem recycled (h : Tidy mem c l) : Recycled mem c l where
  chain := h.chain
  parts := h.parts
  nodup := h.shared.nodup_parts
  inside p hp := by
    rw [h.bumped] at hp
    exact cells_subset le_rfl h.offset.ge hp
  within := bytes_subset le_rfl (Nat.add_le_add_left h.room _)
  apart p hp q hq hpq := by
    rw [h.bumped] at hp hq
    exact cells_disjoint le_rfl le_rfl hp hq hpq
  freeCount := h.freeCount
  exact_below hsmall := by
    have hlen := h.parts.length_eq
    rw [List.length_append] at hlen
    have hoffset := h.offset
    have hroom := h.room
    rw [h.freeCount]
    exact Nat.mod_eq_of_lt (by omega)
  null_iff := h.null_iff

end Tidy

/-- **One operation keeps the invariant.** -/
theorem step_tidy {mem : Region} {c c' : Client} {l : List ℕ} {op : Op} (h : Tidy mem c l)
    (hstep : step c op = some c') : ∃ l', Tidy mem c' l' := by
  cases op with
  | allocOrder => exact h.allocOrder hstep
  | freeOrder p =>
      simp only [step, Option.ite_none_right_eq_some, Option.some.injEq] at hstep
      obtain ⟨hp, rfl⟩ := hstep
      exact ⟨p :: l, h.freeOrder hp⟩
  | write p w =>
      simp only [step, Option.ite_none_right_eq_some, Option.some.injEq] at hstep
      obtain ⟨hp, rfl⟩ := hstep
      exact ⟨l, h.write hp w⟩
  | reset =>
      obtain rfl := Option.some.inj hstep
      exact ⟨[], h.reset⟩

/-- **Recycling never aliases**: for every arena and every sequence of allocs, frees of held nodes,
writes into held nodes and resets. -/
theorem nodes_never_alias (mem : Region) (next : ℕ → Option ℕ) (ops : List Op) :
    Throughout step (fun c => ∃ l, Recycled mem c l) (start mem next) ops := by
  refine throughout_of_invariant (G := fun _ _ => True) (I := fun c => ∃ l, Tidy mem c l) ?_ ?_
    ⟨[], start_tidy mem next⟩ (along_of_forall (fun _ _ => trivial) _ _)
  · rintro c op c' ⟨l, h⟩ - hstep
    exact step_tidy h hstep
  · rintro c ⟨l, h⟩
    exact ⟨l, h.recycled⟩

/-! ### The counter -/

/-- As many nodes can be bumped as there is room for. -/
theorem run_allocs (mem : Region) (next : ℕ → Option ℕ) (n : ℕ) (hn : n * 128 ≤ mem.size) :
    ∃ c, run step (start mem next) (List.replicate n .allocOrder) = some c ∧ Tidy mem c [] ∧
      c.bumped.length = n := by
  induction n with
  | zero => exact ⟨start mem next, rfl, start_tidy mem next, rfl⟩
  | succ n ih =>
      obtain ⟨c, hrun, hc, hlen⟩ := ih (by omega)
      have hoffset := hc.offset
      obtain ⟨c', hstep, hc', hlen'⟩ := hc.bump (by omega)
      refine ⟨c', ?_, hc', by omega⟩
      rw [List.replicate_succ', run_append_eq hrun, run_cons_eq hstep]
      rfl

/-- All nodes that are held can be freed. -/
theorem run_frees {mem : Region} {c : Client} {l : List ℕ} (h : Tidy mem c l) :
    ∃ ops c' l', run step c ops = some c' ∧ Tidy mem c' l' ∧ c'.held = [] ∧
      c'.bumped = c.bumped := by
  generalize hheld : c.held = held
  induction held generalizing c l with
  | nil => exact ⟨[], c, l, rfl, h, hheld, rfl⟩
  | cons p held ih =>
      have hp : p ∈ c.held := hheld ▸ List.mem_cons_self
      have hstep : step c (.freeOrder p) = some { c with
          arena := btMempoolFreeOrder c.arena (some p), held := c.held.erase p } := if_pos hp
      obtain ⟨ops, c', l', hrun, hc', hnone, hsame⟩ := ih (h.freeOrder hp) (by simp [hheld])
      exact ⟨.freeOrder p :: ops, c', l', (run_cons_eq hstep ops).trans hrun, hc', hnone, hsame⟩

/-- In an arena of 512 GiB all `2 ^ 32` nodes can be free while the counter says that none is. -/
theorem freeCount_wraps_around :
    ∃ ops c l, run step (start ⟨4096, 2 ^ 39, by decide, by decide⟩ fun _ => none) ops = some c ∧
      Chain c.arena.next c.arena.freeOrders l ∧ l.length = 2 ^ 32 ∧ c.arena.freeCount = 0 := by
  obtain ⟨c, hrun, hc, hlen⟩ :=
    run_allocs ⟨4096, 2 ^ 39, by decide, by decide⟩ (fun _ => none) (2 ^ 32) (by decide)
  obtain ⟨ops, c', l, hrun', hc', hheld, hbumped⟩ := run_frees hc
  have hparts := hc'.parts.length_eq
  rw [hheld, hbumped, List.nil_append, hlen] at hparts
  refine ⟨_ ++ ops, c', l, (run_append_eq hrun ops).trans hrun', hc'.chain, hparts, ?_⟩
  rw [hc'.freeCount, hparts, Nat.mod_self]

end MemoryPool
