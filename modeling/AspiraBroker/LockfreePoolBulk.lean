/-
**The object pool in the hands of one thread.**

Without concurrent calls every swap of `bt_lockfree_pool.h` succeeds at once, and the functions are
plain updates of the head, the headers of the objects and the two counters.  What the pool gives out
next is the sequence of objects that is reached from the head; nothing here asks that it ends.

A bulk free of `p₀, …, pₙ₋₁` leaves the pool in the state that the single frees of
`pₙ₋₁, …, p₁, p₀` leave it in: the last object gets the old head and each of the others the object
behind it, in either order of the writes.

Main definitions:

* `LockfreePool.Pool`, `LockfreePool.btLfpoolAlloc`, `LockfreePool.btLfpoolFree`,
  `LockfreePool.btLfpoolBulkFree` — the pool and its functions;
* `LockfreePool.Pool.freeList` — the free list as a sequence.

Main results:

* `LockfreePool.alloc_alone`, `LockfreePool.free_alone`, `LockfreePool.bulkFree_alone` — **a call
  that is not interrupted is the function of one thread**;
* `LockfreePool.bulk_free_eq_frees` — **a bulk free is the frees of its objects from the last one to
  the first one, and the allocs that follow return them from the first one to the last one**.
-/

import AspiraBroker.LockfreePool

set_option relaxedAutoImplicit false
set_option autoImplicit false

namespace LockfreePool

open LinkedChain Transition TreiberStack

universe u v

/-! ### The functions -/

/-- `bt_lfpool_t`, with the headers of the objects. -/
structure Pool (α : Type v) where
  head : Option α
  next : α → Option α
  allocCount : UInt64
  freeCount : UInt64

/-- `bt_lfpool_alloc`: the pool, and the object or `NULL`. -/
def btLfpoolAlloc {α : Type v} (pool : Pool α) : Pool α × Option α :=
  match pool.head with
  | none => (pool, none)
  | some head =>
      ({ pool with head := pool.next head, allocCount := pool.allocCount + 1 }, some head)

/-- The object that is reached from the head by `i` links. -/
def Pool.freeList {α : Type v} (pool : Pool α) (i : ℕ) : Option α := visit pool.next i pool.head

/-- The given number of allocs in a row: the pool, and what they return. -/
def allocs {α : Type v} : ℕ → Pool α → Pool α × List (Option α)
  | 0, pool => (pool, [])
  | n + 1, pool =>
      let r := btLfpoolAlloc pool
      let rs := allocs n r.1
      (rs.1, r.2 :: rs.2)

section Frees

variable {α : Type v} [DecidableEq α]

/-- `bt_lfpool_free`; a free of `NULL` does nothing. -/
def btLfpoolFree (pool : Pool α) : Option α → Pool α
  | none => pool
  | some node =>
      { pool with
        head := some node
        next := Function.update pool.next node pool.head
        freeCount := pool.freeCount + 1 }

/-- `bt_lfpool_bulk_free`: the objects of the array are linked one to the next, the last one is
linked to the head, and the first one becomes the head. -/
def btLfpoolBulkFree (pool : Pool α) : List α → Pool α
  | [] => pool
  | first :: rest =>
      { pool with
        head := some first
        next := Function.update (linkAll pool.next (first :: rest)) (rest.getLastD first) pool.head
        freeCount := pool.freeCount + UInt64.ofNat (first :: rest).length }

/-- The single frees of the objects of an array, from the last one to the first one. -/
def frees (pool : Pool α) (ptrs : List α) : Pool α :=
  ptrs.foldr (fun ptr pool => btLfpoolFree pool (some ptr)) pool

end Frees

/-! ### Calls that are not interrupted -/

section Alone

variable {κ : Type u} {α : Type v} [DecidableEq κ] [DecidableEq α] {σ : Sys κ α} {pool : Pool α}
  {k : κ}

/-- **An alloc that is not interrupted is `bt_lfpool_alloc` of one thread.** -/
theorem alloc_alone (hhead : σ.head = pool.head) (hnext : σ.next = pool.next)
    (hpc : σ.pc k = .idle) :
    ∃ n τ, run threadStep σ (.btLfpoolAlloc k :: List.replicate n (.go k)) = some τ ∧
      τ.head = (btLfpoolAlloc pool).1.head ∧ τ.next = (btLfpoolAlloc pool).1.next ∧
      τ.holds k = (btLfpoolAlloc pool).2.toList ++ σ.holds k ∧ τ.pc k = .idle := by
  unfold btLfpoolAlloc
  split
  · next hnone =>
      refine ⟨1, σ.goto k .idle, ?_, hhead, hnext, rfl, goto_pc⟩
      exact (run_stepBy rfl σ).trans (pop_alone_none false hpc (hhead.trans hnone))
  · next head hsome =>
      refine ⟨3, σ.take k head (σ.next head), ?_, ?_, hnext, ?_, goto_pc⟩
      · exact (run_stepBy rfl σ).trans (pop_alone false hpc (hhead.trans hsome))
      · exact congrFun hnext head
      · simp [Sys.take]

/-- **A bulk free that is not interrupted is `bt_lfpool_bulk_free` of one thread.** -/
theorem bulkFree_alone (hhead : σ.head = pool.head) (hnext : σ.next = pool.next)
    (hpc : σ.pc k = .idle) {ptrs : List α} (hnodup : ptrs.Nodup) (hheld : ptrs ⊆ σ.holds k) :
    ∃ n τ, run threadStep σ (.btLfpoolBulkFree k ptrs :: List.replicate n (.go k)) = some τ ∧
      τ.head = (btLfpoolBulkFree pool ptrs).head ∧ τ.next = (btLfpoolBulkFree pool ptrs).next ∧
      τ.holds k = (σ.holds k).diff ptrs ∧ τ.pc k = .idle := by
  cases ptrs with
  | nil => exact ⟨0, σ, rfl, hhead, hnext, (List.diff_nil _).symm, hpc⟩
  | cons first rest =>
      let b : Batch α := ⟨first, rest⟩
      have hacts : (Call.btLfpoolBulkFree k (first :: rest) ::
            List.replicate (rest.length + 3) (.go k)).map Call.act =
          (Act.free k b :: List.replicate (rest.length + 3) (.go k)).map some := by
        simp [Call.act, b]
      refine ⟨rest.length + 3, _, (run_stepBy hacts σ).trans
        (pushBatch_alone false hpc (b := b) hnodup hheld), rfl, ?_, ?_, ?_⟩
      · rw [hhead, hnext]
        rfl
      · exact Function.update_self ..
      · exact Function.update_self ..

/-- **A free that is not interrupted is `bt_lfpool_free` of one thread.** -/
theorem free_alone (hhead : σ.head = pool.head) (hnext : σ.next = pool.next)
    (hpc : σ.pc k = .idle) {ptr : α} (hheld : ptr ∈ σ.holds k) :
    ∃ τ, run threadStep σ [.btLfpoolFree k ptr, .go k, .go k, .go k] = some τ ∧
      τ.head = (btLfpoolFree pool (some ptr)).head ∧
      τ.next = (btLfpoolFree pool (some ptr)).next ∧
      τ.holds k = (σ.holds k).erase ptr ∧ τ.pc k = .idle := by
  refine ⟨_, (run_stepBy rfl σ).trans (push_alone false hpc hheld), rfl, ?_, ?_, ?_⟩
  · rw [hhead, hnext]
    rfl
  · exact Function.update_self ..
  · exact Function.update_self ..

end Alone

/-! ### Allocs and the free list -/

section Allocs

variable {α : Type v}

/-- An alloc takes the first object off the list. -/
theorem freeList_btLfpoolAlloc (pool : Pool α) (i : ℕ) :
    (btLfpoolAlloc pool).1.freeList i = pool.freeList (i + 1) := by
  unfold btLfpoolAlloc
  split
  · next hnone => simp [Pool.freeList, hnone, visit, visit_none]
  · next head hsome => simp [Pool.freeList, hsome, visit]

/-- An alloc returns the first object of the list, or `NULL` if there is none. -/
theorem btLfpoolAlloc_snd (pool : Pool α) : (btLfpoolAlloc pool).2 = pool.freeList 0 := by
  unfold btLfpoolAlloc
  split
  · next hnone => exact hnone.symm
  · next head hsome => exact hsome.symm

/-- Allocs in a row return the objects of the list in order. -/
theorem allocs_snd (n : ℕ) (pool : Pool α) :
    (allocs n pool).2 = (List.range n).map pool.freeList := by
  induction n generalizing pool with
  | zero => rfl
  | succ n ih =>
      have hrest : (btLfpoolAlloc pool).1.freeList = pool.freeList ∘ Nat.succ :=
        funext (freeList_btLfpoolAlloc pool)
      rw [allocs, List.range_succ_eq_map, List.map_cons, List.map_map, ih, hrest,
        btLfpoolAlloc_snd]

end Allocs

/-! ### Single frees and the free list -/

section Order

variable {α : Type v} [DecidableEq α] {pool : Pool α} {a : α} {ps : List α}

/-- A free puts its object in front of the list. -/
theorem freeList_btLfpoolFree (hoff : ∀ j, pool.freeList j ≠ some a) (i : ℕ) :
    (btLfpoolFree pool (some a)).freeList (i + 1) = pool.freeList i := by
  have hlink : (some a).bind (Function.update pool.next a pool.head) = pool.head :=
    Function.update_self ..
  calc (btLfpoolFree pool (some a)).freeList (i + 1)
      = visit (Function.update pool.next a pool.head) i pool.head := by
        rw [Pool.freeList, visit]
        exact congrArg (visit _ i) hlink
    _ = pool.freeList i := visit_update hoff pool.head i

/-- Frees from the last object of an array to the first one put the array in front of the list. -/
theorem freeList_frees (hnodup : ps.Nodup) (hoff : ∀ a ∈ ps, ∀ i, pool.freeList i ≠ some a)
    (i : ℕ) : (frees pool ps).freeList i = ps[i]?.or (pool.freeList (i - ps.length)) := by
  induction ps generalizing i with
  | nil => rfl
  | cons a ps ih =>
      obtain ⟨ha, hps⟩ := List.nodup_cons.1 hnodup
      have hrest := ih hps fun b hb => hoff b (List.mem_cons_of_mem a hb)
      -- the object is neither among those freed before it nor on the old list
      have hoffa : ∀ j, (frees pool ps).freeList j ≠ some a := by
        intro j hj
        rw [hrest, Option.or_eq_some_iff] at hj
        rcases hj with hin | ⟨-, hold⟩
        · exact ha (List.mem_of_getElem? hin)
        · exact hoff a List.mem_cons_self _ hold
      cases i with
      | zero => rfl
      | succ i =>
          rw [List.getElem?_cons_succ, List.length_cons, Nat.add_sub_add_right, ← hrest]
          exact freeList_btLfpoolFree hoffa i

/-! ### Bulk frees -/

/-- A bulk free of one more object in front is a free of that object afterwards. -/
theorem btLfpoolBulkFree_cons (pool : Pool α) (ha : a ∉ ps) :
    btLfpoolBulkFree pool (a :: ps) = btLfpoolFree (btLfpoolBulkFree pool ps) (some a) := by
  cases ps with
  | nil => rfl
  | cons b ps =>
      have hlast : ps.getLastD b ≠ a := fun h => ha (h ▸ Batch.last_mem ⟨b, ps⟩)
      -- the link of `a` is written first by the one and last by the other
      have hnext : Function.update (linkAll pool.next (a :: b :: ps)) (ps.getLastD b) pool.head =
          Function.update (Function.update (linkAll pool.next (b :: ps)) (ps.getLastD b) pool.head)
            a (some b) := by
        rw [linkAll, linkAll_update ha, Function.update_comm hlast]
      have hcount : pool.freeCount + UInt64.ofNat (a :: b :: ps).length =
          pool.freeCount + UInt64.ofNat (b :: ps).length + 1 := by
        rw [List.length_cons, UInt64.ofNat_add, UInt64.add_assoc]
        rfl
      simp only [btLfpoolBulkFree, btLfpoolFree, List.getLastD_cons, hnext, hcount]

/-- A bulk free is the frees of its objects from the last one to the first one. -/
theorem btLfpoolBulkFree_eq (pool : Pool α) (hnodup : ps.Nodup) :
    btLfpoolBulkFree pool ps = frees pool ps := by
  induction ps with
  | nil => rfl
  | cons a ps ih =>
      obtain ⟨ha, hps⟩ := List.nodup_cons.1 hnodup
      rw [btLfpoolBulkFree_cons pool ha, ih hps]
      rfl

/-- **A bulk free is the frees of its objects from the last one to the first one, and the allocs
that follow return them from the first one to the last one**: for every pool and all distinct
objects that are not on its list, the two leave the same pool, counters included, whose list is the
array in front of the old list. -/
theorem bulk_free_eq_frees (pool : Pool α) (ps : List α) (hnodup : ps.Nodup)
    (hoff : ∀ a ∈ ps, ∀ i, pool.freeList i ≠ some a) :
    btLfpoolBulkFree pool ps = frees pool ps ∧
    (∀ i, (btLfpoolBulkFree pool ps).freeList i = ps[i]?.or (pool.freeList (i - ps.length))) ∧
    (allocs ps.length (btLfpoolBulkFree pool ps)).2 = ps.map some := by
  have hlist : ∀ i, (btLfpoolBulkFree pool ps).freeList i =
      ps[i]?.or (pool.freeList (i - ps.length)) := by
    intro i
    rw [btLfpoolBulkFree_eq pool hnodup]
    exact freeList_frees hnodup hoff i
  refine ⟨btLfpoolBulkFree_eq pool hnodup, hlist, ?_⟩
  rw [allocs_snd]
  refine List.ext_getElem (by simp) fun i hi _ => ?_
  have hlt : i < ps.length := by simpa using hi
  simp [hlist, hlt]

end Order

/-- A pool with the object `4` on its list; the objects `1`, `2` and `3` still hold links. -/
def oneFree : Pool ℕ := ⟨some 4, fun a => if a = 4 then none else some 1, 7, 6⟩

theorem freeList_oneFree (i : ℕ) : oneFree.freeList (i + 1) = none :=
  visit_none oneFree.next i

/-- The objects `1`, `2` and `3` are freed in bulk and allocated again. -/
theorem bulk_free_three :
    btLfpoolBulkFree oneFree [1, 2, 3] = frees oneFree [1, 2, 3] ∧
    (∀ i, (btLfpoolBulkFree oneFree [1, 2, 3]).freeList i =
      [1, 2, 3][i]?.or (oneFree.freeList (i - 3))) ∧
    (allocs 3 (btLfpoolBulkFree oneFree [1, 2, 3])).2 = [some 1, some 2, some 3] := by
  refine bulk_free_eq_frees oneFree [1, 2, 3] (by decide) fun a ha i => ?_
  cases i with
  | zero =>
      intro h
      obtain rfl : 4 = a := Option.some.inj h
      exact absurd ha (by decide)
  | succ i =>
      rw [freeList_oneFree]
      exact (Option.some_ne_none a).symm

end LockfreePool
