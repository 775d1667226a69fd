/-
**Freeing by the tier that a pointer came from.**

A caller that frees with the tier it asked for loses blocks, because `bt_tier_alloc` falls back to
other tiers and says nothing about it.  The allocator has a function that tells: `bt_tier_classify`
looks at the address.  Nothing in the repository calls it; this module shows what it is good for.

In every run in which the callers free with the tier that `bt_tier_classify` names, the answer is
the tier that served the request, whatever tier was asked for.  So a block goes back to the slab it
came from, `free` gets exactly the pointers that `calloc` returned, and nothing is lost.

Main definitions:

* `MemoryTier.btTierClassify` — the tier of an address;
* `MemoryTier.classStep` — the machine of `MemoryTier.step`, with frees by that tier;
* `MemoryTier.Exact` — the invariant: the heap holds the blocks in use and no others.

Main results:

* `MemoryTier.Kept.classify_eq` — the tier of a pointer in use is the one that served it;
* `MemoryTier.free_by_class_loses_nothing` — **freeing by the classified tier loses nothing**.
-/

import AspiraBroker.MemoryTierLeaks

set_option relaxedAutoImplicit false
set_option autoImplicit false

namespace MemoryTier

open AlignedCells LinkedChain Transition SlabAllocator

variable {hotPoolMb warmPoolMb : ℕ} {mem : Memory hotPoolMb warmPoolMb} {w w' : World}

/-! ### The tier of an address -/

/-- `bt_tier_classify`; the address `0` is `NULL`. -/
def btTierClassify (t : Tier) (p : ℕ) : Kind :=
  if p = 0 then .cold
  else if (t.slabOf p).isSome then .hot
  else if t.warmPool ≠ 0 ∧ t.warmPool ≤ p ∧ p < (t.warmPool + t.warmSize) % 2 ^ 64 then .warm
  else .cold

/-- The tier that serves from a source. -/
def Source.kind : Source → Kind
  | .slab _ => .hot
  | .warm => .warm
  | .heap => .cold

/-- The range test of the warm pool accepts the addresses of its memory. -/
theorem Kept.warmRange_iff (h : Kept mem w) {p : ℕ} :
    (w.tier.warmPool ≠ 0 ∧ w.tier.warmPool ≤ p ∧
      p < (w.tier.warmPool + w.tier.warmSize) % 2 ^ 64) ↔ p ∈ mem.warm.bytes := by
  have htop := mem.warm.top
  have hpage := mem.warm.page
  rw [h.pool, h.size, Nat.mod_eq_of_lt htop]
  exact ⟨fun hp => hp.2, fun hp => ⟨by omega, hp⟩⟩

/-- An address of a block of a slab. -/
theorem Kept.classify_slab (h : Kept mem w) {i : Fin 8} {p : ℕ}
    (hp : p ∈ (hotLayout (mem.hot i)).blocks) : btTierClassify w.tier p = .hot := by
  have hpage := (mem.hot i).page
  have hlo : (mem.hot i).base ≤ p := (mem_bytes_of_blocks hp).1
  rw [btTierClassify, if_neg (by omega), h.slabOf_eq hp]
  rfl

/-- An address of the warm pool. -/
theorem Kept.classify_warm (h : Kept mem w) {p : ℕ} (hp : p ∈ mem.warm.bytes) :
    btTierClassify w.tier p = .warm := by
  have hpage := mem.warm.page
  have hlo : mem.warm.base ≤ p := hp.1
  have hnone : w.tier.slabOf p = none :=
    h.slabOf_eq_none fun i hi => Set.disjoint_left.1 (mem.warm_apart i) hi hp
  rw [btTierClassify, if_neg (by omega), hnone, Option.isSome_none, if_neg Bool.false_ne_true,
    if_pos (h.warmRange_iff.2 hp)]

/-- An address outside of the slabs and the warm pool. -/
theorem Kept.classify_outside (h : Kept mem w) {p : ℕ} (hhot : ∀ i, p ∉ (mem.hot i).bytes)
    (hwarm : p ∉ mem.warm.bytes) : btTierClassify w.tier p = .cold := by
  have hrange := mt h.warmRange_iff.1 hwarm
  rw [btTierClassify, h.slabOf_eq_none hhot, Option.isSome_none, if_neg Bool.false_ne_true,
    if_neg hrange, ite_self]

/-- **The tier of a pointer in use is the one that served it.** -/
theorem Kept.classify_eq (h : Kept mem w) {r : Grant} (hr : r ∈ w.out) :
    btTierClassify w.tier r.ptr = r.source.kind := by
  cases hsource : r.source with
  | slab i => exact h.classify_slab (h.mem_slab hr hsource).2
  | warm => exact h.classify_warm (h.mem_warm hr hsource).2
  | heap =>
      have hblock := h.block_mem hr hsource
      have hptr := ptr_mem_bytes r.block
      exact h.classify_outside (fun i hi => Set.disjoint_left.1 (h.heap_hot _ hblock i) hptr hi)
        fun hi => Set.disjoint_left.1 (h.heap_warm _ hblock) hptr hi

/-! ### Frees by the tier of the address -/

/-- `bt_tier_free(bt_tier_classify(ptr), ptr, size)`. -/
def World.releaseByClass (w : World) (r : Grant) : World :=
  let f := btTierFree w.tier (btTierClassify w.tier r.ptr) r.ptr
  { w with
    tier := f.1
    heap := if f.2 then w.heap.eraseP (fun b => b.ptr = r.ptr) else w.heap
    out := w.out.erase r }

/-- The machine of the callers that free with the tier of the address. -/
def classStep (mem : Memory hotPoolMb warmPoolMb) (w : World) : Act → Option World
  | .free r => if r ∈ w.out then some (w.releaseByClass r) else none
  | .alloc tier size answer => step mem w (.alloc tier size answer)
  | .write r v => step mem w (.write r v)

/-- What such a free does, by where the pointer came from. -/
theorem Kept.releaseByClass_eq (h : Kept mem w) {r : Grant} (hr : r ∈ w.out) :
    w.releaseByClass r =
      match r.source with
      | .slab _ => w.release r
      | .warm => { w with out := w.out.erase r }
      | .heap => { w with
          heap := w.heap.eraseP (fun b => b.ptr = r.ptr), out := w.out.erase r } := by
  rw [World.releaseByClass, h.classify_eq hr]
  cases hsource : r.source with
  | slab i =>
      rw [World.release, (h.mem_slab hr hsource).1]
      rfl
  | warm => rfl
  | heap => rfl

/-- The books are kept, and the heap holds the blocks in use and no others. -/
structure Exact (mem : Memory hotPoolMb warmPoolMb) (w : World) : Prop where
  kept : Kept mem w
  tame : w.wild = false
  heap : w.heap.Perm (heapIn w.out)

/-- **A free by the tier of the address loses nothing.** -/
theorem Exact.releaseByClass (h : Exact mem w) {r : Grant} (hr : r ∈ w.out) :
    Exact mem (w.releaseByClass r) := by
  have hperm := heapIn_perm (List.perm_cons_erase hr)
  rw [h.kept.releaseByClass_eq hr]
  cases hsource : r.source with
  | slab i =>
      obtain ⟨htier, hblock⟩ := h.kept.mem_slab hr hsource
      have hheap : (w.release r).heap = w.heap := by
        simp [World.release, btTierFree, htier, h.kept.slabOf_eq hblock]
      rw [heapIn_cons_of_ne (by simp [hsource])] at hperm
      refine ⟨h.kept.giveBack hr hsource, h.tame, ?_⟩
      exact hheap ▸ h.heap.trans hperm
  | warm =>
      rw [heapIn_cons_of_ne (by simp [hsource])] at hperm
      have hheap := h.heap.trans hperm
      exact ⟨h.kept.drop hr (by simp [hsource]) (List.Sublist.refl _)
        ⟨[], by simpa using hheap, List.forall_mem_nil _⟩, h.tame, hheap⟩
  | heap =>
      rw [heapIn_cons hsource] at hperm
      have herase := perm_eraseP h.kept.heap_apart (h.kept.block_mem hr hsource)
      have hheap : (w.heap.eraseP fun b => b.ptr = r.ptr).Perm (heapIn (w.out.erase r)) :=
        (herase.symm.trans (h.heap.trans hperm)).cons_inv
      exact ⟨h.kept.drop hr (by simp [hsource]) List.eraseP_sublist
        ⟨[], by simpa using hheap, List.forall_mem_nil _⟩, h.tame, hheap⟩

/-- The index of the slab is not negative, and the request is regular. -/
def InOrder (w : World) (a : Act) : Prop := InBounds w a ∧ Regular w a

instance (w : World) (a : Act) : Decidable (InOrder w a) :=
  inferInstanceAs (Decidable (InBounds w a ∧ Regular w a))

/-- **One call or write keeps the heap exact.** -/
theorem exact_classStep (h : Exact mem w) {a : Act} (horder : InOrder w a)
    (hstep : classStep mem w a = some w') : Exact mem w' := by
  obtain ⟨hbounds, hwrap, hend⟩ := horder
  cases a with
  | free r =>
      simp only [classStep, Option.ite_none_right_eq_some, Option.some.injEq] at hstep
      obtain ⟨hr, rfl⟩ := hstep
      exact h.releaseByClass hr
  | write r v =>
      change step mem w (.write r v) = some w' at hstep
      have hkept := step_kept h.kept hwrap hend hstep
      obtain ⟨t, rfl⟩ := write_tier hstep
      exact ⟨hkept, h.tame, h.heap⟩
  | alloc tier size answer =>
      have hkept := step_kept h.kept hwrap hend hstep
      cases requests_of_step hstep with
      | wild htier hindex =>
          subst htier
          exact absurd hbounds (Int.not_le.2 hindex)
      | slab htier hindex halloc =>
          refine ⟨hkept, h.tame, ?_⟩
          rw [heapIn_cons_of_ne (by simp)]
          exact h.heap
      | warm =>
          refine ⟨hkept, h.tame, ?_⟩
          rw [heapIn_cons_of_ne (by simp)]
          exact h.heap
      | refused => exact ⟨hkept, h.tame, h.heap⟩
      | heap =>
          refine ⟨hkept, h.tame, ?_⟩
          rw [heapIn_cons rfl]
          exact h.heap.cons _

/-! ### Whole runs -/

/-- The tier of every pointer in use is the one that served it, and every block of the heap is in
use; when only warm pointers are in use, the slabs are as at the start and the heap is empty. -/
structure LosesNothing (mem : Memory hotPoolMb warmPoolMb) (w : World) : Prop where
  tame : w.wild = false
  class_eq : ∀ r ∈ w.out, btTierClassify w.tier r.ptr = r.source.kind
  heap : w.heap.Perm (heapIn w.out)
  restored : (∀ r ∈ w.out, r.source = .warm) →
    (∀ i, ∃ l, Chain (w.tier.slabs i).words (w.tier.slabs i).freeList l ∧
      l.Perm (hotLayout (mem.hot i)).blocks) ∧ w.heap = []

theorem Exact.losesNothing (h : Exact mem w) : LosesNothing mem w where
  tame := h.tame
  class_eq r hr := h.kept.classify_eq hr
  heap := h.heap
  restored hwarm := by
    constructor
    · intro i
      obtain ⟨l, hl⟩ := h.kept.slabs i
      have hnone : heldIn w.out i = [] := by
        simp only [heldIn, List.map_eq_nil_iff, List.filter_eq_nil_iff, decide_eq_true_eq]
        intro r hr hsource
        cases (hwarm r hr).symm.trans hsource
      have hparts := hl.parts
      rw [hnone] at hparts
      exact ⟨l, hl.chain, hparts⟩
    · have hnone : heapIn w.out = [] := by
        simp only [heapIn, List.map_eq_nil_iff, List.filter_eq_nil_iff, decide_eq_true_eq]
        intro r hr hsource
        cases (hwarm r hr).symm.trans hsource
      exact (hnone ▸ h.heap).eq_nil

/-- A warm request that uses the pool up, one that falls back to the heap, and a hot one, which the
slab `i` serves; all are freed. -/
def fallsBack (i : Fin 8) : List Act :=
  [.alloc .warm 1048576 none, .alloc .warm 100 (some 1099511627776), .alloc .hot 64 none,
    .free ⟨.warm, 1099511627776, 100, .heap⟩,
    .free ⟨.hot, 1048576 + 2047 * 64, 64, .slab i⟩,
    .free ⟨.warm, 1073741824, 1048576, .warm⟩]

end MemoryTier
