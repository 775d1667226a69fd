/-
**The tiered allocator.**

`bt_tier_alloc` serves a request from one of three sources: eight hot slabs of 64-byte blocks, used
in turn; a warm pool that only grows; and the heap.  A request for a hot block that finds its slab
exhausted falls through to the warm pool, and from there to the heap; a request for the warm pool
falls through to the heap.  `bt_tier_free` looks at the tier the caller names: a hot pointer goes
back to the slab whose range it lies in, a warm one nowhere, a cold one to the heap.

The requests may be of any size.  Nothing compares a hot request with the 64 bytes of a block, and
the sums of the warm pool wrap around near `2 ^ 64`: these are the ways in which a caller gets fewer
bytes than it asked for.  The turn counter of the slabs is an `int`; once it has overflowed it is
negative, and so is the index computed from it.

Main definitions:

* `MemoryTier.Tier`, `MemoryTier.btTierInit`, `MemoryTier.btTierAlloc`, `MemoryTier.btTierFree` —
  the allocator;
* `MemoryTier.Memory` — what the platform gives at the start;
* `MemoryTier.World`, `MemoryTier.step` — the allocator, the heap, and the pointers in use;
* `MemoryTier.Sound` — the pointers in use do not overlap and lie where they came from;
* `MemoryTier.InBounds`, `MemoryTier.SmallHot`, `MemoryTier.NoWrap` — the condition for that;
* `MemoryTier.Kept` — the invariant of the bookkeeping.

Main results:

* `MemoryTier.step_kept` — one call keeps the books;
* `MemoryTier.tiers_never_overlap_iff` — **the pointers in use do not overlap exactly as long as the
  condition holds**.
-/

import AspiraBroker.SlabAllocator

set_option relaxedAutoImplicit false
set_option autoImplicit false

namespace MemoryTier

open AlignedCells LinkedChain Transition SlabAllocator

/-! ### The allocator -/

/-- `bt_tier_t`; `other` stands for the values outside of the enumeration. -/
inductive Kind
  | hot
  | warm
  | cold
  | other
  deriving DecidableEq

/-- The variables of the module: the slabs, the turn counter, and the warm pool. -/
structure Tier where
  slabs : Fin 8 → Slab
  hotNext : ℤ
  warmPool : ℕ
  warmSize : ℕ
  warmOffset : ℕ

/-- Where a request ends up.  `wild` is an access to a slab with a negative index. -/
inductive Served
  | slab (i : Fin 8) (p : ℕ)
  | warm (p : ℕ)
  | heap
  | wild

/-- The index that the turn counter gives; `%` of C takes the sign of its left operand. -/
def Tier.hotIndex (t : Tier) : ℤ := t.hotNext.tmod 8

/-- The slab with that index, if it is not negative. -/
def Tier.hotSlab (t : Tier) : Fin 8 := Fin.ofNat 8 t.hotIndex.toNat

/-- The slab whose turn it is, by the counter of either sign. -/
def Tier.turnSlab (t : Tier) : Fin 8 := Fin.ofNat 8 (t.hotNext % 8).toNat

/-- The turn counter after `__atomic_fetch_add`, which wraps around. -/
def Tier.turned (t : Tier) : Tier := { t with hotNext := (t.hotNext + 1).bmod (2 ^ 32) }

/-- `my_offset + aligned`, as a `size_t`. -/
def warmStop (t : Tier) (size : ℕ) : ℕ := (t.warmOffset + cacheLines size) % 2 ^ 64

/-- The case `BT_TIER_WARM` of `bt_tier_alloc`: the offset moves on whether the request fits or
not. -/
def warmAlloc (t : Tier) (size : ℕ) : Tier × Served :=
  let t' := { t with warmOffset := warmStop t size }
  if warmStop t size ≤ t.warmSize then (t', .warm ((t.warmPool + t.warmOffset) % 2 ^ 64))
  else (t', .heap)

/-- `bt_tier_alloc`, up to the call of `calloc`. -/
def btTierAlloc (t : Tier) (tier : Kind) (size : ℕ) : Tier × Served :=
  match tier with
  | .hot =>
      if t.hotIndex < 0 then (t.turned, .wild)
      else
        match btSlabAlloc (t.slabs t.hotSlab) with
        | (s, some p) =>
            ({ t.turned with slabs := Function.update t.slabs t.hotSlab s }, .slab t.hotSlab p)
        | (_, none) => warmAlloc t.turned size
  | .warm => warmAlloc t size
  | .cold | .other => (t, .heap)

/-- The slab that `bt_tier_free` finds for a pointer. -/
def Tier.slabOf (t : Tier) (p : ℕ) : Option (Fin 8) :=
  (List.finRange 8).find? fun i => (t.slabs i).inRange p

/-- `bt_tier_free`, and whether it passes the pointer to `free`. -/
def btTierFree (t : Tier) (tier : Kind) (p : ℕ) : Tier × Bool :=
  match tier with
  | .hot =>
      match t.slabOf p with
      | some i =>
          ({ t with slabs := Function.update t.slabs i (btSlabFree (t.slabs i) (some p)) }, false)
      | none => (t, false)
  | .warm => (t, false)
  | .cold => (t, true)
  | .other => (t, false)

/-! ### Initialisation -/

/-- `hot_per_slab`. -/
def hotPerSlab (hotPoolMb : ℕ) : ℕ := hotPoolMb * 1024 * 1024 % 2 ^ 64 / 8

/-- `g_warm_size`. -/
def warmPoolSize (warmPoolMb : ℕ) : ℕ := warmPoolMb * 1024 * 1024 % 2 ^ 64

/-- The memory that `bt_numa_alloc_local` gives for the slabs and the warm pool. -/
structure Memory (hotPoolMb warmPoolMb : ℕ) where
  hot : Fin 8 → Region
  warm : Region
  hot_size : ∀ i, (hot i).size = hotPerSlab hotPoolMb
  warm_size : warm.size = warmPoolSize warmPoolMb
  hot_apart : ∀ i j, i ≠ j → Disjoint (hot i).bytes (hot j).bytes
  warm_apart : ∀ i, Disjoint (hot i).bytes warm.bytes

variable {hotPoolMb warmPoolMb : ℕ}

/-- Which allocations of `bt_tier_init` succeed: that of the slab array, of each slab, and of the
warm pool. -/
structure Answers where
  slabs : Bool
  hot : Fin 8 → Bool
  warm : Bool

/-- `bt_tier_init`; the memory holds `words`. -/
def btTierInit (mem : Memory hotPoolMb warmPoolMb) (words : ℕ → Option ℕ) (ok : Answers) :
    Option Tier :=
  let slab i := if ok.hot i then btSlabInit (mem.hot i) words 64 else none
  if ok.slabs then
    if h : ∀ i, (slab i).isSome then
      if ok.warm then
        some ⟨fun i => (slab i).get (h i), 0, mem.warm.base, warmPoolSize warmPoolMb, 0⟩
      else none
    else none
  else none

/-! ### The pointers in use -/

/-- Where a pointer came from. -/
inductive Source
  | slab (i : Fin 8)
  | warm
  | heap
  deriving DecidableEq

/-- A block of the heap, with the tier it was requested for. -/
structure Block where
  tier : Kind
  ptr : ℕ
  size : ℕ
  deriving DecidableEq

/-- A pointer in use: the request it answers, and where it came from. -/
structure Grant where
  tier : Kind
  ptr : ℕ
  size : ℕ
  source : Source
  deriving DecidableEq

/-- The bytes that the caller may use. -/
def Grant.bytes (r : Grant) : Set ℕ := AlignedCells.bytes r.ptr r.size

/-- The block behind a pointer from the heap. -/
def Grant.block (r : Grant) : Block := ⟨r.tier, r.ptr, r.size⟩

/-- The bytes of a block; a block of no bytes still has an address of its own. -/
def Block.bytes (b : Block) : Set ℕ := AlignedCells.bytes b.ptr (max b.size 1)

/-- The allocator, the blocks of the heap, the pointers in use, and whether memory outside of the
slab array was taken for a slab. -/
structure World where
  tier : Tier
  heap : List Block
  out : List Grant
  wild : Bool

/-- What the callers do: a request, with the answer of `calloc` if it comes to that; a free of a
pointer with the tier it was requested from; a write to the start of the memory behind a pointer. -/
inductive Act
  | alloc (tier : Kind) (size : UInt64) (answer : Option ℕ)
  | free (r : Grant)
  | write (r : Grant) (w : Option ℕ)

/-- What `calloc` may return: memory that is not in use. -/
def Vacant (mem : Memory hotPoolMb warmPoolMb) (heap : List Block) (p size : ℕ) : Prop :=
  4096 ≤ p ∧ p + max size 1 < 2 ^ 64 ∧
    (∀ i, Apart (mem.hot i).base (mem.hot i).size p (max size 1)) ∧
    Apart mem.warm.base mem.warm.size p (max size 1) ∧
    ∀ b ∈ heap, Apart b.ptr (max b.size 1) p (max size 1)

instance (mem : Memory hotPoolMb warmPoolMb) (heap : List Block) (p size : ℕ) :
    Decidable (Vacant mem heap p size) := by
  unfold Vacant
  infer_instance

/-- The pointer is freed with the tier it was requested from. -/
def World.release (w : World) (r : Grant) : World :=
  let f := btTierFree w.tier r.tier r.ptr
  { w with
    tier := f.1
    heap := if f.2 then w.heap.eraseP (fun b => b.ptr = r.ptr) else w.heap
    out := w.out.erase r }

/-- One call or write. -/
def step (mem : Memory hotPoolMb warmPoolMb) (w : World) : Act → Option World
  | .alloc tier size answer =>
      match btTierAlloc w.tier tier size.toNat with
      | (t, .slab i p) => some { w with tier := t, out := ⟨tier, p, size.toNat, .slab i⟩ :: w.out }
      | (t, .warm p) => some { w with tier := t, out := ⟨tier, p, size.toNat, .warm⟩ :: w.out }
      | (t, .wild) => some { w with tier := t, wild := true }
      | (t, .heap) =>
          match answer with
          | none => some { w with tier := t }
          | some p =>
              if Vacant mem w.heap p size.toNat then
                some { w with
                  tier := t
                  heap := ⟨tier, p, size.toNat⟩ :: w.heap
                  out := ⟨tier, p, size.toNat, .heap⟩ :: w.out }
              else none
  | .free r => if r ∈ w.out then some (w.release r) else none
  | .write r v =>
      if r ∈ w.out then
        match r.source with
        | .slab i =>
            some { w with tier.slabs := Function.update w.tier.slabs i { w.tier.slabs i with
              words := Function.update (w.tier.slabs i).words r.ptr v } }
        | .warm | .heap => some w
      else none

/-- Nothing is in use. -/
def start (t : Tier) : World := ⟨t, [], [], false⟩

/-- The blocks of a slab over the region. -/
def hotLayout (r : Region) : Layout := ⟨r.base, 64, r.size / 64, 64⟩

/-- The bytes behind the pointer lie in the slab block, the warm pool or the heap block it came
from. -/
def Within (mem : Memory hotPoolMb warmPoolMb) (heap : List Block) (r : Grant) : Prop :=
  match r.source with
  | .slab i => r.ptr ∈ (hotLayout (mem.hot i)).blocks ∧ r.bytes ⊆ bytes r.ptr 64
  | .warm => r.bytes ⊆ mem.warm.bytes
  | .heap => r.block ∈ heap

/-- The pointers in use do not overlap and lie where they came from. -/
structure Sound (mem : Memory hotPoolMb warmPoolMb) (w : World) : Prop where
  tame : w.wild = false
  apart : w.out.Pairwise fun r r' => Disjoint r.bytes r'.bytes
  within : ∀ r ∈ w.out, Within mem w.heap r

/-! ### The condition -/

/-- The size of a request that comes to the warm pool. -/
def warmRequest (t : Tier) : Act → Option ℕ
  | .alloc .hot size _ =>
      if 0 ≤ t.hotIndex ∧ (t.slabs t.hotSlab).freeList = none then some size.toNat else none
  | .alloc .warm size _ => some size.toNat
  | _ => none

/-- The index of the slab is not negative. -/
def InBounds (w : World) : Act → Prop
  | .alloc .hot _ _ => 0 ≤ w.tier.hotIndex
  | _ => True

/-- A request that a slab serves is for at most 64 bytes. -/
def SmallHot (w : World) : Act → Prop
  | .alloc .hot size _ => (w.tier.slabs w.tier.hotSlab).freeList ≠ none → size.toNat ≤ 64
  | _ => True

/-- A request that comes to the warm pool does not overflow a `size_t`, or is not served even
so. -/
def NoWrap (w : World) (a : Act) : Prop :=
  ∀ size ∈ warmRequest w.tier a,
    w.tier.warmSize < warmStop w.tier size ∨
      (size + 63 < 2 ^ 64 ∧ w.tier.warmOffset + cacheLines size < 2 ^ 64)

/-- A request for no bytes does not come to the warm pool when it is used up to the last byte: it
would be served with the address after the pool, which may be the start of a slab. -/
def NotAtEnd (w : World) (a : Act) : Prop :=
  ∀ size ∈ warmRequest w.tier a, ¬ (size = 0 ∧ w.tier.warmOffset = w.tier.warmSize)

instance (w : World) : ∀ a, Decidable (InBounds w a)
  | .alloc .hot _ _ => inferInstanceAs (Decidable (0 ≤ w.tier.hotIndex))
  | .alloc .warm _ _ | .alloc .cold _ _ | .alloc .other _ _ | .free _ | .write _ _ => isTrue trivial

instance (w : World) : ∀ a, Decidable (SmallHot w a)
  | .alloc .hot size _ => inferInstanceAs
      (Decidable ((w.tier.slabs w.tier.hotSlab).freeList ≠ none → size.toNat ≤ 64))
  | .alloc .warm _ _ | .alloc .cold _ _ | .alloc .other _ _ | .free _ | .write _ _ => isTrue trivial

instance (w : World) (a : Act) : Decidable (NoWrap w a) :=
  inferInstanceAs (Decidable (∀ size ∈ warmRequest w.tier a, _ ∨ _))

instance (w : World) (a : Act) : Decidable (NotAtEnd w a) :=
  inferInstanceAs (Decidable (∀ size ∈ warmRequest w.tier a, ¬ (_ ∧ _)))

/-! ### The invariant -/

/-- The blocks of a slab that are in use. -/
def heldIn (out : List Grant) (i : Fin 8) : List ℕ :=
  (out.filter fun r => r.source = .slab i).map Grant.ptr

/-- The blocks of the heap that are in use. -/
def heapIn (out : List Grant) : List Block :=
  (out.filter fun r => r.source = .heap).map Grant.block

/-- A slab block answers a hot request, and a warm pointer lies in the used part of the pool and
answers a hot or warm one. -/
def Placed (mem : Memory hotPoolMb warmPoolMb) (offset : ℕ) (r : Grant) : Prop :=
  match r.source with
  | .slab _ => r.tier = .hot
  | .warm => r.tier ≠ .cold ∧ mem.warm.base ≤ r.ptr ∧ r.ptr < mem.warm.base + mem.warm.size ∧
      r.ptr + r.size ≤ mem.warm.base + min offset mem.warm.size
  | .heap => True

/-- The books are in order: every slab block is free or in use, every pointer in use is placed, and
every heap block is in use or lost, but no lost one was requested as cold. -/
structure Kept (mem : Memory hotPoolMb warmPoolMb) (w : World) : Prop where
  slabs : ∀ i, ∃ l, Parted (hotLayout (mem.hot i)) (w.tier.slabs i) (heldIn w.out i) l
  placed : ∀ r ∈ w.out, Placed mem w.tier.warmOffset r
  pool : w.tier.warmPool = mem.warm.base
  offset : w.tier.warmOffset < 2 ^ 64
  size : w.tier.warmSize = mem.warm.size
  heap : ∃ lost, w.heap.Perm (heapIn w.out ++ lost) ∧ ∀ b ∈ lost, b.tier ≠ .cold
  heap_apart : w.heap.Pairwise fun b b' => Disjoint b.bytes b'.bytes
  heap_hot : ∀ b ∈ w.heap, ∀ i, Disjoint b.bytes (mem.hot i).bytes
  heap_warm : ∀ b ∈ w.heap, Disjoint b.bytes mem.warm.bytes

section Books

variable {out out' : List Grant} {r : Grant} {i : Fin 8}

theorem heldIn_cons (h : r.source = .slab i) (out : List Grant) :
    heldIn (r :: out) i = r.ptr :: heldIn out i := by
  simp [heldIn, h]

theorem heldIn_cons_of_ne (h : r.source ≠ .slab i) (out : List Grant) :
    heldIn (r :: out) i = heldIn out i := by
  simp [heldIn, h]

theorem heldIn_perm (h : out.Perm out') (i : Fin 8) : (heldIn out i).Perm (heldIn out' i) :=
  (h.filter _).map _

theorem mem_heldIn (hr : r ∈ out) (h : r.source = .slab i) : r.ptr ∈ heldIn out i :=
  List.mem_map_of_mem (List.mem_filter.2 ⟨hr, by simpa using h⟩)

theorem heapIn_cons (h : r.source = .heap) (out : List Grant) :
    heapIn (r :: out) = r.block :: heapIn out := by
  simp [heapIn, h]

theorem heapIn_cons_of_ne (h : r.source ≠ .heap) (out : List Grant) :
    heapIn (r :: out) = heapIn out := by
  simp [heapIn, h]

theorem heapIn_perm (h : out.Perm out') : (heapIn out).Perm (heapIn out') :=
  (h.filter _).map _

theorem mem_heapIn (hr : r ∈ out) (h : r.source = .heap) : r.block ∈ heapIn out :=
  List.mem_map_of_mem (List.mem_filter.2 ⟨hr, by simpa using h⟩)

theorem ptr_mem_bytes (b : Block) : b.ptr ∈ b.bytes :=
  ⟨le_rfl, by omega⟩

/-- In a heap without overlaps, `free` finds the block by its address. -/
theorem perm_eraseP {heap : List Block} {b : Block}
    (hapart : heap.Pairwise fun b b' => Disjoint b.bytes b'.bytes) (hb : b ∈ heap) :
    heap.Perm (b :: heap.eraseP fun b' => b'.ptr = b.ptr) := by
  obtain ⟨a, l₁, l₂, -, ha, hheap, hrest⟩ :=
    List.exists_of_eraseP (p := fun b' => b'.ptr = b.ptr) hb (by simp)
  have hptr : a.ptr = b.ptr := by simpa using ha
  have hab : a = b := by
    by_contra hne
    have hmem : a ∈ heap := by simp [hheap]
    have : Std.Symm fun b b' : Block => Disjoint b.bytes b'.bytes := ⟨fun _ _ h => h.symm⟩
    have hdisj := hapart.forall hmem hb hne
    exact Set.disjoint_left.1 hdisj (ptr_mem_bytes a) (hptr ▸ ptr_mem_bytes b)
  rw [hrest, hheap, hab]
  exact List.perm_middle

end Books

/-! ### The slabs -/

section Slabs

variable {mem : Memory hotPoolMb warmPoolMb} {w : World}

theorem hotLayout_fits (r : Region) : (hotLayout r).Fits r :=
  ⟨rfl, Nat.succ_pos 63, Nat.div_mul_le_self _ _, le_rfl⟩

/-- The range test of a slab accepts only addresses of its memory. -/
theorem mem_bytes_of_inRange {r : Region} {p : ℕ} (h : (hotLayout r).inRange p = true) :
    p ∈ r.bytes := by
  have hroom : r.size / 64 * 64 ≤ r.size := Nat.div_mul_le_self _ _
  have htop := r.top
  obtain ⟨hlo, hhi⟩ := Bool.and_eq_true_iff.1 h
  have hlo : r.base ≤ p := of_decide_eq_true hlo
  have hhi : p < (r.base + r.size / 64 * 64) % 2 ^ 64 := of_decide_eq_true hhi
  rw [Nat.mod_eq_of_lt (by omega)] at hhi
  exact ⟨hlo, by omega⟩

theorem mem_bytes_of_blocks {r : Region} {p : ℕ} (h : p ∈ (hotLayout r).blocks) : p ∈ r.bytes :=
  mem_bytes_of_inRange ((hotLayout_fits r).inRange h)

theorem Kept.layout (h : Kept mem w) (i : Fin 8) :
    (w.tier.slabs i).toLayout = hotLayout (mem.hot i) := by
  obtain ⟨l, hl⟩ := h.slabs i
  exact hl.layout

/-- `bt_tier_free` finds the slab that a block belongs to. -/
theorem Kept.slabOf_eq (h : Kept mem w) {i : Fin 8} {p : ℕ}
    (hp : p ∈ (hotLayout (mem.hot i)).blocks) : w.tier.slabOf p = some i := by
  have hi : (w.tier.slabs i).inRange p = true := by
    rw [h.layout]
    exact (hotLayout_fits _).inRange hp
  cases hfind : w.tier.slabOf p with
  | none =>
      have := List.find?_eq_none.1 hfind i (List.mem_finRange i)
      exact absurd hi this
  | some j =>
      have hj : (w.tier.slabs j).inRange p = true :=
        List.find?_some (p := fun i => (w.tier.slabs i).inRange p) hfind
      rw [h.layout] at hj
      by_contra hne
      have hji : j ≠ i := fun h => hne (congrArg some h)
      exact Set.disjoint_left.1 (mem.hot_apart j i hji) (mem_bytes_of_inRange hj)
        (mem_bytes_of_blocks hp)

/-- It finds no slab for an address outside of the memory of the slabs. -/
theorem Kept.slabOf_eq_none (h : Kept mem w) {p : ℕ} (hp : ∀ i, p ∉ (mem.hot i).bytes) :
    w.tier.slabOf p = none := by
  refine List.find?_eq_none.2 fun i _ hi => hp i ?_
  rw [h.layout] at hi
  exact mem_bytes_of_inRange hi

end Slabs

/-! ### What a request can do -/

/-- The slabs and the pool are the same, and no used part of the pool is given up. -/
structure Steady (t t' : Tier) : Prop where
  slabs : t'.slabs = t.slabs
  pool : t'.warmPool = t.warmPool
  size : t'.warmSize = t.warmSize
  offset : min t.warmOffset t.warmSize ≤ min t'.warmOffset t.warmSize
  bound : t.warmOffset < 2 ^ 64 → t'.warmOffset < 2 ^ 64

theorem Steady.refl (t : Tier) : Steady t t := ⟨rfl, rfl, rfl, le_rfl, id⟩

theorem Steady.turned (t : Tier) : Steady t t.turned := ⟨rfl, rfl, rfl, le_rfl, id⟩

theorem warmStop_lt (t : Tier) (size : ℕ) : warmStop t size < 2 ^ 64 := Nat.mod_lt _ (by decide)

/-- The request goes to the heap: neither a slab nor the warm pool serves it. -/
def Falls (t : Tier) : Kind → ℕ → Prop
  | .hot, size => 0 ≤ t.hotIndex ∧ (t.slabs t.hotSlab).freeList = none ∧
      t.warmSize < warmStop t size
  | .warm, size => t.warmSize < warmStop t size
  | .cold, _ | .other, _ => True

/-- What a request can do. -/
inductive Requests (mem : Memory hotPoolMb warmPoolMb) (w : World) (tier : Kind) (size : UInt64)
    (answer : Option ℕ) : World → Prop
  | wild (htier : tier = .hot) (hindex : w.tier.hotIndex < 0) :
      Requests mem w tier size answer { w with tier := w.tier.turned, wild := true }
  | slab (htier : tier = .hot) (hindex : 0 ≤ w.tier.hotIndex) {s : Slab} {p : ℕ}
      (halloc : btSlabAlloc (w.tier.slabs w.tier.hotSlab) = (s, some p)) :
      Requests mem w tier size answer
        { w with
          tier := { w.tier.turned with slabs := Function.update w.tier.slabs w.tier.hotSlab s }
          out := ⟨tier, p, size.toNat, .slab w.tier.hotSlab⟩ :: w.out }
  | warm (hrequest : warmRequest w.tier (.alloc tier size answer) = some size.toNat)
      (hserved : warmStop w.tier size.toNat ≤ w.tier.warmSize) {t : Tier}
      (hslabs : t.slabs = w.tier.slabs) (hpool : t.warmPool = w.tier.warmPool)
      (hsize : t.warmSize = w.tier.warmSize) (hoffset : t.warmOffset = warmStop w.tier size.toNat) :
      Requests mem w tier size answer
        { w with
          tier := t
          out :=
            ⟨tier, (w.tier.warmPool + w.tier.warmOffset) % 2 ^ 64, size.toNat, .warm⟩ :: w.out }
  | refused {t : Tier} (hsteady : Steady w.tier t) (hfalls : Falls w.tier tier size.toNat)
      (hanswer : answer = none) : Requests mem w tier size answer { w with tier := t }
  | heap {p : ℕ} {t : Tier} (hsteady : Steady w.tier t) (hfalls : Falls w.tier tier size.toNat)
      (hanswer : answer = some p) (hvacant : Vacant mem w.heap p size.toNat) :
      Requests mem w tier size answer
        { w with
          tier := t
          heap := ⟨tier, p, size.toNat⟩ :: w.heap
          out := ⟨tier, p, size.toNat, .heap⟩ :: w.out }

section Requests

variable {mem : Memory hotPoolMb warmPoolMb} {w w' : World} {tier : Kind} {size : UInt64}
  {answer : Option ℕ}

/-- A request that goes to the heap. -/
theorem requests_of_heap {t : Tier} (hsteady : Steady w.tier t)
    (hfalls : Falls w.tier tier size.toNat)
    (hdone : btTierAlloc w.tier tier size.toNat = (t, .heap))
    (hstep : step mem w (.alloc tier size answer) = some w') :
    Requests mem w tier size answer w' := by
  simp only [step, hdone] at hstep
  cases answer with
  | none =>
      obtain rfl := Option.some.inj hstep
      exact .refused hsteady hfalls rfl
  | some p =>
      simp only [Option.ite_none_right_eq_some, Option.some.injEq] at hstep
      obtain ⟨hvacant, rfl⟩ := hstep
      exact .heap hsteady hfalls rfl hvacant

/-- A request that comes to the warm pool, after the turn counter has moved or not. -/
theorem requests_of_warm {t : Tier} (ht : t = w.tier ∨ t = w.tier.turned)
    (hrequest : warmRequest w.tier (.alloc tier size answer) = some size.toNat)
    (hfalls : w.tier.warmSize < warmStop w.tier size.toNat → Falls w.tier tier size.toNat)
    (hdone : btTierAlloc w.tier tier size.toNat = warmAlloc t size.toNat)
    (hstep : step mem w (.alloc tier size answer) = some w') :
    Requests mem w tier size answer w' := by
  have hslabs : t.slabs = w.tier.slabs := by rcases ht with rfl | rfl <;> rfl
  have hpool : t.warmPool = w.tier.warmPool := by rcases ht with rfl | rfl <;> rfl
  have hsize : t.warmSize = w.tier.warmSize := by rcases ht with rfl | rfl <;> rfl
  have hoffset : t.warmOffset = w.tier.warmOffset := by rcases ht with rfl | rfl <;> rfl
  have hstop : warmStop t size.toNat = warmStop w.tier size.toNat := by
    rw [warmStop, hoffset]
    rfl
  by_cases hserved : warmStop w.tier size.toNat ≤ w.tier.warmSize
  · have hwarm : btTierAlloc w.tier tier size.toNat =
        ({ t with warmOffset := warmStop w.tier size.toNat },
          .warm ((w.tier.warmPool + w.tier.warmOffset) % 2 ^ 64)) := by
      simp only [hdone, warmAlloc, hstop, hsize, hpool, hoffset, if_pos hserved]
    simp only [step, hwarm, Option.some.injEq] at hstep
    subst hstep
    exact .warm hrequest hserved hslabs hpool hsize rfl
  · have hheap : btTierAlloc w.tier tier size.toNat =
        ({ t with warmOffset := warmStop w.tier size.toNat }, .heap) := by
      simp only [hdone, warmAlloc, hstop, hsize, if_neg hserved]
    have hsteady : Steady w.tier { t with warmOffset := warmStop w.tier size.toNat } := by
      refine ⟨hslabs, hpool, hsize, ?_, fun _ => warmStop_lt _ _⟩
      change _ ≤ min (warmStop w.tier size.toNat) _
      omega
    exact requests_of_heap hsteady (hfalls (Nat.lt_of_not_le hserved)) hheap hstep

/-- **What a request can do.** -/
theorem requests_of_step (hstep : step mem w (.alloc tier size answer) = some w') :
    Requests mem w tier size answer w' := by
  cases tier with
  | hot =>
      by_cases hindex : w.tier.hotIndex < 0
      · simp only [step, btTierAlloc, if_pos hindex, Option.some.injEq] at hstep
        subst hstep
        exact .wild rfl hindex
      · have hindex' : 0 ≤ w.tier.hotIndex := Int.not_lt.1 hindex
        cases hlist : (w.tier.slabs w.tier.hotSlab).freeList with
        | none =>
            have hdone : btTierAlloc w.tier .hot size.toNat =
                warmAlloc w.tier.turned size.toNat := by
              simp only [btTierAlloc, if_neg hindex, btSlabAlloc, hlist]
            refine requests_of_warm (.inr rfl) ?_ (fun hfull => ⟨hindex', hlist, hfull⟩) hdone hstep
            exact if_pos ⟨hindex', hlist⟩
        | some p =>
            obtain ⟨s, halloc⟩ :
                ∃ s, btSlabAlloc (w.tier.slabs w.tier.hotSlab) = (s, some p) := by
              simp only [btSlabAlloc, hlist]
              exact ⟨_, rfl⟩
            simp only [step, btTierAlloc, if_neg hindex, halloc, Option.some.injEq] at hstep
            subst hstep
            exact .slab rfl hindex' halloc
  | warm => exact requests_of_warm (.inl rfl) rfl id rfl hstep
  | cold => exact requests_of_heap (Steady.refl _) trivial rfl hstep
  | other => exact requests_of_heap (Steady.refl _) trivial rfl hstep

end Requests

/-! ### The books are kept -/

section Keeping

variable {mem : Memory hotPoolMb warmPoolMb} {w w' : World} {tier : Kind} {size : UInt64}
  {answer : Option ℕ}

theorem Placed.mono {offset offset' : ℕ} {r : Grant} (h : Placed mem offset r)
    (hle : min offset mem.warm.size ≤ min offset' mem.warm.size) : Placed mem offset' r := by
  unfold Placed at h ⊢
  split
  · next hsource => simpa only [hsource] using h
  · next hsource =>
      simp only [hsource] at h
      obtain ⟨hcold, hlo, hin, hhi⟩ := h
      exact ⟨hcold, hlo, hin, by omega⟩
  · trivial

/-- What does not concern the slabs, the heap and the pointers in use. -/
theorem Kept.steady (h : Kept mem w) {t : Tier} (ht : Steady w.tier t) (wild : Bool) :
    Kept mem { w with tier := t, wild := wild } where
  slabs i := by
    change ∃ l, Parted _ (t.slabs i) _ l
    rw [ht.slabs]
    exact h.slabs i
  placed r hr := (h.placed r hr).mono (h.size ▸ ht.offset)
  pool := ht.pool.trans h.pool
  offset := ht.bound h.offset
  size := ht.size.trans h.size
  heap := h.heap
  heap_apart := h.heap_apart
  heap_hot := h.heap_hot
  heap_warm := h.heap_warm

/-- One slab changes, and with it the pointers in use that came from it. -/
theorem parted_update {slabs : Fin 8 → Slab} {out out' : List Grant} {i : Fin 8} {s : Slab}
    (h : ∀ j, ∃ l, Parted (hotLayout (mem.hot j)) (slabs j) (heldIn out j) l)
    (hi : ∃ l, Parted (hotLayout (mem.hot i)) s (heldIn out' i) l)
    (helse : ∀ j, j ≠ i → (heldIn out' j).Perm (heldIn out j)) (j : Fin 8) :
    ∃ l, Parted (hotLayout (mem.hot j)) (Function.update slabs i s j) (heldIn out' j) l := by
  rcases eq_or_ne j i with rfl | hj
  · rw [Function.update_self]
    exact hi
  · rw [Function.update_of_ne hj]
    obtain ⟨l, hl⟩ := h j
    exact ⟨l, hl.of_perm (helse j hj)⟩

/-- A slab hands out a block that was free. -/
theorem Kept.slab (h : Kept mem w) {i : Fin 8} {s : Slab} {p n : ℕ}
    (halloc : btSlabAlloc (w.tier.slabs i) = (s, some p)) :
    p ∈ (hotLayout (mem.hot i)).blocks ∧ p ∉ heldIn w.out i ∧
      Kept mem { w with
        tier := { w.tier.turned with slabs := Function.update w.tier.slabs i s }
        out := ⟨.hot, p, n, .slab i⟩ :: w.out } := by
  obtain ⟨l, hl⟩ := h.slabs i
  rcases hl.alloc with ⟨-, -, hnone⟩ | ⟨q, t, -, -, hsome, hparted⟩
  · rw [halloc] at hnone
    cases hnone
  · rw [halloc] at hsome hparted
    obtain rfl : p = q := Option.some.inj hsome
    have hnodup : (p :: heldIn w.out i ++ t).Nodup :=
      hparted.parts.nodup_iff.2 (cells_nodup (hotLayout_fits _).pos)
    refine ⟨hparted.held_mem List.mem_cons_self, fun hp => ?_,
      parted_update h.slabs ⟨t, ?_⟩ fun j hj => ?_, List.forall_mem_cons.2 ⟨rfl, h.placed⟩, h.pool,
      h.offset, h.size, ?_, h.heap_apart, h.heap_hot, h.heap_warm⟩
    · exact (List.nodup_cons.1 hnodup).1 (List.mem_append_left _ hp)
    · rwa [heldIn_cons rfl]
    · rw [heldIn_cons_of_ne (by simpa using hj.symm)]
    · rw [heapIn_cons_of_ne (by simp)]
      exact h.heap

/-- A pointer that came from neither the slabs nor the heap concerns only the warm pool. -/
theorem Kept.consWarm (h : Kept mem w) {r : Grant} (hsource : r.source = .warm)
    (hplaced : Placed mem w.tier.warmOffset r) : Kept mem { w with out := r :: w.out } where
  slabs i := by
    rw [heldIn_cons_of_ne (by simp [hsource])]
    exact h.slabs i
  placed := List.forall_mem_cons.2 ⟨hplaced, h.placed⟩
  pool := h.pool
  offset := h.offset
  size := h.size
  heap := by
    rw [heapIn_cons_of_ne (by simp [hsource])]
    exact h.heap
  heap_apart := h.heap_apart
  heap_hot := h.heap_hot
  heap_warm := h.heap_warm

/-- `calloc` returns a block that was not in use. -/
theorem Kept.consHeap (h : Kept mem w) {p n : ℕ} (hvacant : Vacant mem w.heap p n) :
    Kept mem { w with heap := ⟨tier, p, n⟩ :: w.heap, out := ⟨tier, p, n, .heap⟩ :: w.out } := by
  obtain ⟨-, -, hhot, hwarm, hheap⟩ := hvacant
  obtain ⟨lost, hperm, hlost⟩ := h.heap
  refine ⟨fun i => ?_, List.forall_mem_cons.2 ⟨trivial, h.placed⟩, h.pool, h.offset, h.size,
    ⟨lost, ?_, hlost⟩, List.pairwise_cons.2 ⟨fun b hb => (hheap b hb).disjoint.symm, h.heap_apart⟩,
    List.forall_mem_cons.2 ⟨fun i => (hhot i).disjoint.symm, h.heap_hot⟩,
    List.forall_mem_cons.2 ⟨hwarm.disjoint.symm, h.heap_warm⟩⟩
  · rw [heldIn_cons_of_ne (by simp)]
    exact h.slabs i
  · rw [heapIn_cons rfl]
    exact hperm.cons _

/-- The pool hands out its next bytes, if nothing has wrapped around. -/
theorem Kept.warmPlaced (h : Kept mem w) {n : ℕ} (hcold : tier ≠ .cold)
    (hserved : warmStop w.tier n ≤ w.tier.warmSize) (hn : n + 63 < 2 ^ 64)
    (hwrap : w.tier.warmOffset + cacheLines n < 2 ^ 64)
    (hend : ¬ (n = 0 ∧ w.tier.warmOffset = w.tier.warmSize)) :
    Placed mem (warmStop w.tier n)
      ⟨tier, (w.tier.warmPool + w.tier.warmOffset) % 2 ^ 64, n, .warm⟩ ∧
    (w.tier.warmPool + w.tier.warmOffset) % 2 ^ 64 = mem.warm.base + w.tier.warmOffset ∧
    w.tier.warmOffset ≤ warmStop w.tier n := by
  have hle := le_cacheLines hn
  have hstop : warmStop w.tier n = w.tier.warmOffset + cacheLines n := Nat.mod_eq_of_lt hwrap
  have htop := mem.warm.top
  have hsize := h.size
  have hptr : (w.tier.warmPool + w.tier.warmOffset) % 2 ^ 64 =
      mem.warm.base + w.tier.warmOffset := by
    rw [h.pool]
    exact Nat.mod_eq_of_lt (by omega)
  rw [hptr]
  refine ⟨⟨hcold, ?_, ?_, ?_⟩, rfl, by omega⟩
  · change mem.warm.base ≤ mem.warm.base + w.tier.warmOffset
    omega
  · change mem.warm.base + w.tier.warmOffset < mem.warm.base + mem.warm.size
    omega
  · change mem.warm.base + w.tier.warmOffset + n ≤
      mem.warm.base + min (warmStop w.tier n) mem.warm.size
    omega

/-- A pointer in use that came from the heap is a block of the heap. -/
theorem Kept.block_mem (h : Kept mem w) {r : Grant} (hr : r ∈ w.out) (hsource : r.source = .heap) :
    r.block ∈ w.heap := by
  obtain ⟨lost, hperm, -⟩ := h.heap
  exact hperm.mem_iff.2 (List.mem_append_left _ (mem_heapIn hr hsource))

/-- A pointer in use that came from the warm pool lies in it. -/
theorem Kept.mem_warm (h : Kept mem w) {r : Grant} (hr : r ∈ w.out) (hsource : r.source = .warm) :
    r.tier ≠ .cold ∧ r.ptr ∈ mem.warm.bytes := by
  have hplaced := h.placed r hr
  unfold Placed at hplaced
  rw [hsource] at hplaced
  exact ⟨hplaced.1, hplaced.2.1, hplaced.2.2.1⟩

/-- A slab block in use was requested as hot and is a block of the slab. -/
theorem Kept.mem_slab (h : Kept mem w) {r : Grant} (hr : r ∈ w.out) {i : Fin 8}
    (hsource : r.source = .slab i) : r.tier = .hot ∧ r.ptr ∈ (hotLayout (mem.hot i)).blocks := by
  obtain ⟨l, hl⟩ := h.slabs i
  have hplaced := h.placed r hr
  unfold Placed at hplaced
  rw [hsource] at hplaced
  exact ⟨hplaced, hl.held_mem (mem_heldIn hr hsource)⟩

/-- Unless the pointer came from a slab or was requested as cold, a free does nothing. -/
theorem Kept.release_eq (h : Kept mem w) {r : Grant} (hr : r ∈ w.out)
    (hslab : ∀ i, r.source ≠ .slab i) (hcold : r.tier ≠ .cold) :
    w.release r = { w with out := w.out.erase r } := by
  have hout : ∀ i, r.ptr ∉ (mem.hot i).bytes := by
    intro i hi
    cases hsource : r.source with
    | slab j => exact hslab j hsource
    | warm => exact Set.disjoint_left.1 (mem.warm_apart i) hi (h.mem_warm hr hsource).2
    | heap =>
        have hdisj := h.heap_hot _ (h.block_mem hr hsource) i
        exact Set.disjoint_left.1 hdisj (ptr_mem_bytes r.block) hi
  have hnone := h.slabOf_eq_none hout
  cases htier : r.tier with
  | hot => simp [World.release, btTierFree, htier, hnone]
  | warm => simp [World.release, btTierFree, htier]
  | cold => exact absurd htier hcold
  | other => simp [World.release, btTierFree, htier]

/-- A pointer that did not come from a slab is given up, and its heap block, if it has one, is lost
or freed. -/
theorem Kept.drop (h : Kept mem w) {r : Grant} (hr : r ∈ w.out) (hslab : ∀ i, r.source ≠ .slab i)
    {heap : List Block} (hsub : heap.Sublist w.heap)
    (hheap : ∃ lost, heap.Perm (heapIn (w.out.erase r) ++ lost) ∧ ∀ b ∈ lost, b.tier ≠ .cold) :
    Kept mem { w with heap := heap, out := w.out.erase r } where
  slabs i := by
    obtain ⟨l, hl⟩ := h.slabs i
    have hperm := heldIn_perm (List.perm_cons_erase hr) i
    rw [heldIn_cons_of_ne (hslab i)] at hperm
    exact ⟨l, hl.of_perm hperm.symm⟩
  placed r' hr' := h.placed r' (List.mem_of_mem_erase hr')
  pool := h.pool
  offset := h.offset
  size := h.size
  heap := hheap
  heap_apart := h.heap_apart.sublist hsub
  heap_hot b hb := h.heap_hot b (hsub.subset hb)
  heap_warm b hb := h.heap_warm b (hsub.subset hb)

/-- A slab takes its block back. -/
theorem Kept.giveBack (h : Kept mem w) {r : Grant} (hr : r ∈ w.out) {i : Fin 8}
    (hsource : r.source = .slab i) : Kept mem (w.release r) := by
  obtain ⟨htier, hblock⟩ := h.mem_slab hr hsource
  obtain ⟨l, hl⟩ := h.slabs i
  have hperm := List.perm_cons_erase hr
  have hrelease : w.release r = { w with
      tier := { w.tier with
        slabs := Function.update w.tier.slabs i (btSlabFree (w.tier.slabs i) (some r.ptr)) }
      out := w.out.erase r } := by
    simp [World.release, btTierFree, htier, h.slabOf_eq hblock]
  rw [hrelease]
  refine ⟨parted_update h.slabs ⟨r.ptr :: l, ?_⟩ fun j hj => ?_,
    fun r' hr' => h.placed r' (List.mem_of_mem_erase hr'), h.pool, h.offset, h.size, ?_,
    h.heap_apart, h.heap_hot, h.heap_warm⟩
  · have hheld := heldIn_perm hperm i
    rw [heldIn_cons hsource] at hheld
    refine (hl.free (hotLayout_fits _) (mem_heldIn hr hsource)).of_perm ?_
    simpa using (hheld.erase r.ptr).symm
  · have hheld := heldIn_perm hperm j
    rw [heldIn_cons_of_ne (by simpa [hsource] using hj.symm)] at hheld
    exact hheld.symm
  · obtain ⟨lost, hlost, hcold⟩ := h.heap
    have hheap := heapIn_perm hperm
    rw [heapIn_cons_of_ne (by simp [hsource])] at hheap
    exact ⟨lost, hlost.trans (hheap.append_right lost), hcold⟩

/-- **A free keeps the books.** -/
theorem Kept.release (h : Kept mem w) {r : Grant} (hr : r ∈ w.out) : Kept mem (w.release r) := by
  have hperm := heapIn_perm (List.perm_cons_erase hr)
  obtain ⟨lost, hlost, hnot⟩ := h.heap
  cases hsource : r.source with
  | slab i => exact h.giveBack hr hsource
  | warm =>
      rw [heapIn_cons_of_ne (by simp [hsource])] at hperm
      rw [h.release_eq hr (by simp [hsource]) (h.mem_warm hr hsource).1]
      exact h.drop hr (by simp [hsource]) (List.Sublist.refl _)
        ⟨lost, hlost.trans (hperm.append_right lost), hnot⟩
  | heap =>
      rw [heapIn_cons hsource] at hperm
      by_cases hcold : r.tier = .cold
      · -- the block is passed to `free`
        have herase := perm_eraseP h.heap_apart (h.block_mem hr hsource)
        have hrelease : w.release r = { w with
            heap := w.heap.eraseP (fun b => b.ptr = r.ptr), out := w.out.erase r } := by
          simp [World.release, btTierFree, hcold]
        rw [hrelease]
        refine h.drop hr (by simp [hsource]) List.eraseP_sublist ⟨lost, ?_, hnot⟩
        exact (herase.symm.trans (hlost.trans (hperm.append_right lost))).cons_inv
      · -- the block is lost
        rw [h.release_eq hr (by simp [hsource]) hcold]
        refine h.drop hr (by simp [hsource]) (List.Sublist.refl _) ⟨r.block :: lost, ?_, ?_⟩
        · exact (hlost.trans (hperm.append_right lost)).trans List.perm_middle.symm
        · exact List.forall_mem_cons.2 ⟨hcold, hnot⟩

/-- A write into a slab block in use does not concern the free list. -/
theorem Kept.write (h : Kept mem w) {r : Grant} (hr : r ∈ w.out) {i : Fin 8}
    (hsource : r.source = .slab i) (v : Option ℕ) :
    Kept mem { w with tier.slabs := Function.update w.tier.slabs i { w.tier.slabs i with
      words := Function.update (w.tier.slabs i).words r.ptr v } } := by
  obtain ⟨l, hl⟩ := h.slabs i
  have hwrite := hl.write (hotLayout_fits _).pos (mem_heldIn hr hsource) v
  exact ⟨parted_update h.slabs ⟨l, hwrite⟩ fun _ _ => List.Perm.refl _, h.placed, h.pool, h.offset,
    h.size, h.heap, h.heap_apart, h.heap_hot, h.heap_warm⟩

/-- A write changes neither the heap nor the pointers in use. -/
theorem write_tier {r : Grant} {v : Option ℕ} (hstep : step mem w (.write r v) = some w') :
    ∃ t, w' = { w with tier := t } := by
  simp only [step, Option.ite_none_right_eq_some] at hstep
  obtain ⟨-, hstep⟩ := hstep
  split at hstep
  · exact ⟨_, (Option.some.inj hstep).symm⟩
  · exact ⟨w.tier, (Option.some.inj hstep).symm⟩
  · exact ⟨w.tier, (Option.some.inj hstep).symm⟩

/-- **One call or write keeps the books**, if nothing wraps around in the warm pool. -/
theorem step_kept (h : Kept mem w) {a : Act} (hwrap : NoWrap w a) (hend : NotAtEnd w a)
    (hstep : step mem w a = some w') : Kept mem w' := by
  cases a with
  | alloc tier size answer =>
      cases requests_of_step hstep with
      | wild htier hindex => exact h.steady (Steady.turned _) true
      | slab htier hindex halloc =>
          subst htier
          exact (h.slab halloc).2.2
      | @warm hrequest hserved t hslabs hpool hsize hoffset =>
          obtain ⟨hn, hlt⟩ := (hwrap _ hrequest).resolve_left (by omega)
          have hcold : tier ≠ .cold := by
            rintro rfl
            cases hrequest
          obtain ⟨hplaced, -, hle⟩ := h.warmPlaced hcold hserved hn hlt (hend _ hrequest)
          have hsteady : Steady w.tier t :=
            ⟨hslabs, hpool, hsize, by omega, fun _ => hoffset ▸ warmStop_lt _ _⟩
          exact (h.steady hsteady w.wild).consWarm rfl (hoffset ▸ hplaced)
      | refused hsteady _ _ => exact h.steady hsteady w.wild
      | heap hsteady _ _ hvacant => exact (h.steady hsteady w.wild).consHeap hvacant
  | free r =>
      simp only [step, Option.ite_none_right_eq_some, Option.some.injEq] at hstep
      obtain ⟨hr, rfl⟩ := hstep
      exact h.release hr
  | write r v =>
      simp only [step, Option.ite_none_right_eq_some] at hstep
      obtain ⟨hr, hstep⟩ := hstep
      cases hsource : r.source with
      | slab i =>
          simp only [hsource, Option.some.injEq] at hstep
          subst hstep
          exact h.write hr hsource v
      | warm =>
          simp only [hsource, Option.some.injEq] at hstep
          exact hstep ▸ h
      | heap =>
          simp only [hsource, Option.some.injEq] at hstep
          exact hstep ▸ h

end Keeping

/-! ### No overlaps -/

/-- The memory that a pointer could at most reach into. -/
def Grant.area (mem : Memory hotPoolMb warmPoolMb) (r : Grant) : Set ℕ :=
  match r.source with
  | .slab i => (mem.hot i).bytes
  | .warm => mem.warm.bytes
  | .heap => r.block.bytes

/-- The books are kept, no slab block answers a request for more than 64 bytes, and the pointers in
use do not overlap. -/
structure Clean (mem : Memory hotPoolMb warmPoolMb) (w : World) : Prop where
  kept : Kept mem w
  tame : w.wild = false
  small : ∀ r ∈ w.out, ∀ i, r.source = .slab i → r.size ≤ 64
  apart : w.out.Pairwise fun r r' => Disjoint r.bytes r'.bytes

section Overlaps

variable {mem : Memory hotPoolMb warmPoolMb} {w w' : World} {r r' : Grant}

/-- Pointers from different sources reach into different memory. -/
theorem Kept.area_disjoint (h : Kept mem w) (hr : r ∈ w.out) (hr' : r' ∈ w.out)
    (hne : r.source ≠ r'.source) : Disjoint (r.area mem) (r'.area mem) := by
  unfold Grant.area
  cases hs : r.source with
  | slab i =>
      cases hs' : r'.source with
      | slab j =>
          refine mem.hot_apart i j fun hij => hne ?_
          rw [hs, hs', hij]
      | warm => exact mem.warm_apart i
      | heap => exact (h.heap_hot _ (h.block_mem hr' hs') i).symm
  | warm =>
      cases hs' : r'.source with
      | slab j => exact (mem.warm_apart j).symm
      | warm => exact absurd (hs.trans hs'.symm) hne
      | heap => exact (h.heap_warm _ (h.block_mem hr' hs')).symm
  | heap =>
      cases hs' : r'.source with
      | slab j => exact h.heap_hot _ (h.block_mem hr hs) j
      | warm => exact h.heap_warm _ (h.block_mem hr hs)
      | heap => exact absurd (hs.trans hs'.symm) hne

/-- A pointer in use lies where it came from, unless a slab block answers a larger request. -/
theorem Kept.within (h : Kept mem w) (hr : r ∈ w.out)
    (hsmall : ∀ i, r.source = .slab i → r.size ≤ 64) : Within mem w.heap r := by
  unfold Within
  cases hs : r.source with
  | slab i =>
      exact ⟨(h.mem_slab hr hs).2, bytes_subset le_rfl (Nat.add_le_add_left (hsmall i hs) _)⟩
  | warm =>
      have hplaced := h.placed r hr
      unfold Placed at hplaced
      rw [hs] at hplaced
      obtain ⟨-, hlo, -, hhi⟩ := hplaced
      exact bytes_subset hlo (by omega)
  | heap => exact h.block_mem hr hs

theorem Clean.sound (h : Clean mem w) : Sound mem w :=
  ⟨h.tame, h.apart, fun r hr => h.kept.within hr (h.small r hr)⟩

/-- A pointer that lies where it came from reaches into no other memory. -/
theorem bytes_subset_area {heap : List Block} (h : Within mem heap r) : r.bytes ⊆ r.area mem := by
  unfold Within at h
  unfold Grant.area
  cases hs : r.source with
  | slab i =>
      rw [hs] at h
      exact h.2.trans ((hotLayout_fits (mem.hot i)).inside h.1)
  | warm =>
      rw [hs] at h
      exact h
  | heap => exact bytes_subset le_rfl (Nat.add_le_add_left (le_max_left _ _) _)

/-- A new pointer does not overlap those in use, if it does not overlap those from its own
source. -/
theorem Clean.cons {t : Tier} {heap : List Block} (h : Clean mem w)
    (hkept : Kept mem ⟨t, heap, r :: w.out, w.wild⟩)
    (hsmall : ∀ i, r.source = .slab i → r.size ≤ 64)
    (hown : ∀ r' ∈ w.out, r'.source = r.source → Disjoint r.bytes r'.bytes) :
    Clean mem ⟨t, heap, r :: w.out, w.wild⟩ := by
  have hsmall' : ∀ r' ∈ r :: w.out, ∀ i, r'.source = .slab i → r'.size ≤ 64 :=
    List.forall_mem_cons.2 ⟨hsmall, h.small⟩
  refine ⟨hkept, h.tame, hsmall', List.pairwise_cons.2 ⟨fun r' hr' => ?_, h.apart⟩⟩
  by_cases hsource : r'.source = r.source
  · exact hown r' hr' hsource
  · have hr'' : r' ∈ r :: w.out := List.mem_cons_of_mem r hr'
    have hdisj := hkept.area_disjoint (r := r) List.mem_cons_self hr'' fun hs => hsource hs.symm
    exact hdisj.mono (bytes_subset_area (hkept.within List.mem_cons_self hsmall))
      (bytes_subset_area (hkept.within hr'' (hsmall' r' hr'')))

/-- A new slab block does not overlap the blocks of its slab that are in use. -/
theorem Clean.slab_disjoint (h : Clean mem w) {i : Fin 8} {p n : ℕ} (hn : n ≤ 64)
    (hp : p ∈ (hotLayout (mem.hot i)).blocks) (hfree : p ∉ heldIn w.out i) (hr' : r' ∈ w.out)
    (hsource : r'.source = .slab i) : Disjoint (bytes p n) r'.bytes := by
  have hne : p ≠ r'.ptr := by
    rintro rfl
    exact hfree (mem_heldIn hr' hsource)
  exact cells_disjoint hn (h.small r' hr' i hsource) hp (h.kept.mem_slab hr' hsource).2 hne

/-- **One call or write keeps the pointers apart**, under the condition. -/
theorem step_clean (h : Clean mem w) {a : Act} (hbounds : InBounds w a) (hsmall : SmallHot w a)
    (hwrap : NoWrap w a) (hend : NotAtEnd w a) (hstep : step mem w a = some w') :
    Clean mem w' := by
  have hkept := step_kept h.kept hwrap hend hstep
  cases a with
  | alloc tier size answer =>
      cases requests_of_step hstep with
      | wild htier hindex =>
          subst htier
          exact absurd hbounds (Int.not_le.2 hindex)
      | @slab htier hindex s p halloc =>
          subst htier
          have hn : size.toNat ≤ 64 := by
            refine hsmall fun hnone => ?_
            simp [btSlabAlloc, hnone] at halloc
          obtain ⟨hp, hfree, -⟩ := h.kept.slab (n := size.toNat) halloc
          exact h.cons hkept (fun _ _ => hn) fun r' hr' hs => h.slab_disjoint hn hp hfree hr' hs
      | @warm hrequest hserved t hslabs hpool hsize hoffset =>
          obtain ⟨hn, hlt⟩ := (hwrap _ hrequest).resolve_left (by omega)
          have hcold : tier ≠ .cold := by
            rintro rfl
            cases hrequest
          obtain ⟨-, hptr, -⟩ := h.kept.warmPlaced hcold hserved hn hlt (hend _ hrequest)
          refine h.cons hkept (by simp) fun r' hr' hs => ?_
          have hplaced := h.kept.placed r' hr'
          unfold Placed at hplaced
          rw [hs] at hplaced
          obtain ⟨-, -, -, hhi⟩ := hplaced
          refine Apart.disjoint (.inr ?_)
          change r'.ptr + r'.size ≤ (w.tier.warmPool + w.tier.warmOffset) % 2 ^ 64
          omega
      | refused hsteady _ _ => exact ⟨hkept, h.tame, h.small, h.apart⟩
      | heap hsteady _ _ hvacant =>
          refine h.cons hkept (by simp) fun r' hr' hs => ?_
          have hdisj := (hvacant.2.2.2.2 _ (h.kept.block_mem hr' hs)).disjoint.symm
          exact hdisj.mono (bytes_subset le_rfl (Nat.add_le_add_left (le_max_left _ _) _))
            (bytes_subset le_rfl (Nat.add_le_add_left (le_max_left _ _) _))
  | free r =>
      simp only [step, Option.ite_none_right_eq_some, Option.some.injEq] at hstep
      obtain ⟨hr, rfl⟩ := hstep
      exact ⟨hkept, h.tame, fun r' hr' => h.small r' (List.mem_of_mem_erase hr'),
        h.apart.sublist List.erase_sublist⟩
  | write r v =>
      obtain ⟨t, rfl⟩ := write_tier hstep
      exact ⟨hkept, h.tame, h.small, h.apart⟩

end Overlaps

/-! ### Whole runs -/

section Runs

variable {mem : Memory hotPoolMb warmPoolMb} {w : World} {tier : Kind} {size : UInt64}
  {answer : Option ℕ}

/-- Every slab that `bt_tier_init` sets up is cut into blocks of 64 bytes, all of them free. -/
theorem btSlabInit_hot {r : Region} {words : ℕ → Option ℕ} {s : Slab}
    (h : btSlabInit r words 64 = some s) : ∃ l, Parted (hotLayout r) s [] l := by
  have hparted := btSlabInit_parted h
  obtain ⟨L, hbase, hblock, haligned, hnum, -, rfl⟩ := btSlabInit_spec h
  have hL : L = hotLayout r := by
    obtain ⟨base, blockSize, numBlocks, alignedSize⟩ := L
    simp only at hbase hblock haligned hnum
    subst hbase hblock haligned hnum
    rfl
  rw [linkBlocks_toLayout] at hparted
  change Parted L _ _ _ at hparted
  rw [← hL]
  exact ⟨_, hparted⟩

/-- `bt_tier_init` leaves everything clean. -/
theorem btTierInit_clean {words : ℕ → Option ℕ} {ok : Answers} {t : Tier}
    (h : btTierInit mem words ok = some t) : Clean mem (start t) := by
  unfold btTierInit at h
  simp only [Option.ite_none_right_eq_some, Option.dite_none_right_eq_some,
    Option.some.injEq] at h
  obtain ⟨-, hslabs, -, rfl⟩ := h
  refine ⟨⟨fun i => ?_, List.forall_mem_nil _, rfl, Nat.two_pow_pos 64, mem.warm_size.symm,
    ⟨[], List.Perm.refl _, List.forall_mem_nil _⟩, List.Pairwise.nil, List.forall_mem_nil _,
    List.forall_mem_nil _⟩, rfl, List.forall_mem_nil _, List.Pairwise.nil⟩
  have hslab := (Option.some_get (hslabs i)).symm
  rw [Option.ite_none_right_eq_some] at hslab
  exact btSlabInit_hot hslab.2

/-- The condition under which the pointers in use stay apart. -/
def Safe (w : World) (a : Act) : Prop := InBounds w a ∧ SmallHot w a ∧ NoWrap w a

instance (w : World) (a : Act) : Decidable (Safe w a) :=
  inferInstanceAs (Decidable (InBounds w a ∧ SmallHot w a ∧ NoWrap w a))

/-- A request that comes to the warm pool and fits is served there. -/
theorem step_warm (mem : Memory hotPoolMb warmPoolMb) {n : ℕ}
    (hrequest : warmRequest w.tier (.alloc tier size answer) = some n)
    (hserved : warmStop w.tier n ≤ w.tier.warmSize) :
    n = size.toNat ∧ ∃ t, step mem w (.alloc tier size answer) = some { w with
      tier := t
      out := ⟨tier, (w.tier.warmPool + w.tier.warmOffset) % 2 ^ 64, n, .warm⟩ :: w.out } := by
  cases tier with
  | hot =>
      simp only [warmRequest, Option.ite_none_right_eq_some, Option.some.injEq] at hrequest
      obtain ⟨⟨hindex, hlist⟩, rfl⟩ := hrequest
      have hserved' : warmStop w.tier.turned size.toNat ≤ w.tier.turned.warmSize := hserved
      refine ⟨rfl, { w.tier.turned with warmOffset := warmStop w.tier.turned size.toNat }, ?_⟩
      simp only [step, btTierAlloc, if_neg (Int.not_lt.2 hindex), btSlabAlloc, hlist, warmAlloc,
        if_pos hserved']
      rfl
  | warm =>
      obtain rfl := Option.some.inj hrequest
      refine ⟨rfl, { w.tier with warmOffset := warmStop w.tier size.toNat }, ?_⟩
      simp only [step, btTierAlloc, warmAlloc, if_pos hserved]
  | cold => cases hrequest
  | other => cases hrequest

/-- Bytes that lie in the warm pool have not wrapped around. -/
theorem noWrap_of_subset (h : Kept mem w) {n : ℕ} (hn : n < 2 ^ 64)
    (hsub : bytes ((w.tier.warmPool + w.tier.warmOffset) % 2 ^ 64) n ⊆ mem.warm.bytes) :
    n + 63 < 2 ^ 64 ∧ w.tier.warmOffset + cacheLines n < 2 ^ 64 := by
  have hoffset := h.offset
  have hle := cacheLines_le n
  have htop := mem.warm.top
  have hpage := mem.warm.page
  rcases Nat.eq_zero_or_pos n with rfl | hpos
  · have hzero : cacheLines 0 = 0 := by decide
    omega
  · obtain ⟨hlo, hhi⟩ := bounds_of_bytes_subset hsub hpos
    rw [h.pool] at hlo hhi
    omega

/-- A step after which the pointers in use are apart has met the condition. -/
theorem safe_of_sound (h : Clean mem w) {a : Act}
    (hsound : ∀ w', step mem w a = some w' → Sound mem w') : Safe w a := by
  have hwrap : NoWrap w a := by
    intro n hrequest
    refine or_iff_not_imp_left.2 fun hserved => ?_
    cases a with
    | alloc tier size answer =>
        obtain ⟨rfl, t, hstep⟩ := step_warm mem hrequest (Nat.le_of_not_lt hserved)
        have hwithin := (hsound _ hstep).within _ List.mem_cons_self
        exact noWrap_of_subset h.kept size.toNat_lt hwithin
    | free r => cases hrequest
    | write r v => cases hrequest
  cases a with
  | alloc tier size answer =>
      cases tier with
      | hot =>
          have hbounds : 0 ≤ w.tier.hotIndex := by
            by_contra hneg
            have hstep : step mem w (.alloc .hot size answer) =
                some { w with tier := w.tier.turned, wild := true } := by
              simp only [step, btTierAlloc, if_pos (Int.not_le.1 hneg)]
            cases (hsound _ hstep).tame
          refine ⟨hbounds, fun hlist => ?_, hwrap⟩
          obtain ⟨p, hp⟩ := Option.ne_none_iff_exists'.1 hlist
          have hstep : ∃ t, step mem w (.alloc .hot size answer) = some { w with
              tier := t, out := ⟨.hot, p, size.toNat, .slab w.tier.hotSlab⟩ :: w.out } := by
            simp only [step, btTierAlloc, if_neg (Int.not_lt.2 hbounds), btSlabAlloc, hp]
            exact ⟨_, rfl⟩
          obtain ⟨t, hstep⟩ := hstep
          have hwithin := ((hsound _ hstep).within _ List.mem_cons_self).2
          by_contra hlarge
          have := bounds_of_bytes_subset hwithin (by change 0 < size.toNat; omega)
          have : p + size.toNat ≤ p + 64 := this.2
          omega
      | warm => exact ⟨trivial, trivial, hwrap⟩
      | cold => exact ⟨trivial, trivial, hwrap⟩
      | other => exact ⟨trivial, trivial, hwrap⟩
  | free r => exact ⟨trivial, trivial, hwrap⟩
  | write r v => exact ⟨trivial, trivial, hwrap⟩

end Runs

/-- **The pointers in use do not overlap exactly as long as the condition holds**: for every size of
the pools, every memory that the platform gives, and every sequence of requests of any tier and
size, frees with the tier of the request, and writes.  Left aside are only requests for no bytes
that find the warm pool used up to its last byte. -/
theorem tiers_never_overlap_iff (mem : Memory hotPoolMb warmPoolMb) (words : ℕ → Option ℕ)
    {ok : Answers} {t : Tier} (hinit : btTierInit mem words ok = some t) (acts : List Act)
    (hend : Along (step mem) NotAtEnd (start t) acts) :
    Throughout (step mem) (Sound mem) (start t) acts ↔ Along (step mem) Safe (start t) acts := by
  refine throughout_iff_of_guarded (I := Clean mem) ?_ (fun w h => h.sound)
    (fun w a h _ hsound => safe_of_sound h hsound) (btTierInit_clean hinit) hend
  rintro w a w' h hend ⟨hbounds, hsmall, hwrap⟩ hstep
  exact step_clean h hbounds hsmall hwrap hend hstep

/-- Eight slabs of 128 KiB and a warm pool of 1 MiB. -/
def oneMegabyte : Memory 1 1 where
  hot i := ⟨2 ^ 20 * (i + 1), 2 ^ 17, by omega, by omega⟩
  warm := ⟨2 ^ 30, 2 ^ 20, by decide, by decide⟩
  hot_size _ := rfl
  warm_size := rfl
  hot_apart i j hij := by
    have hne : (i : ℕ) ≠ j := fun h => hij (Fin.ext h)
    refine Apart.disjoint ?_
    change 2 ^ 20 * ((i : ℕ) + 1) + 2 ^ 17 ≤ 2 ^ 20 * ((j : ℕ) + 1) ∨
      2 ^ 20 * ((j : ℕ) + 1) + 2 ^ 17 ≤ 2 ^ 20 * ((i : ℕ) + 1)
    omega
  warm_apart i := by
    refine Apart.disjoint (.inl ?_)
    change 2 ^ 20 * ((i : ℕ) + 1) + 2 ^ 17 ≤ 2 ^ 30
    omega

/-- Everything that `bt_tier_init` allocates is there. -/
def allThere : Answers := ⟨true, fun _ => true, true⟩

/-- Requests of every tier, and frees of what they returned. -/
def mixed : List Act :=
  [.alloc .hot 64 none, .alloc .warm 100 none, .alloc .cold 10 (some (2 ^ 40)), .alloc .hot 1 none,
    .free ⟨.hot, 2 ^ 20 + 2047 * 64, 64, .slab 0⟩, .free ⟨.cold, 2 ^ 40, 10, .heap⟩,
    .alloc .warm 0 none]

/-- The hypotheses of `MemoryTier.tiers_never_overlap_iff` hold of a run with requests of every
tier, and so does the condition. -/
theorem tiers_never_overlap_mixed :
    ∃ t, btTierInit oneMegabyte (fun _ => none) allThere = some t ∧
      Along (step oneMegabyte) NotAtEnd (start t) mixed ∧
      Throughout (step oneMegabyte) (Sound oneMegabyte) (start t) mixed :=
  ⟨_, rfl, by decide +kernel, (tiers_never_overlap_iff oneMegabyte (fun _ => none)
    (by rfl : btTierInit oneMegabyte (fun _ => none) allThere = some _) mixed
    (by decide +kernel)).2 (by decide +kernel)⟩

/-- A hot request for 100 bytes is answered with a block of 64.  A warm request for `2 ^ 64 - 64`
bytes is answered after one for 64, because the sum wraps around, and the next one gets the bytes of
the first again. -/
theorem tiers_overlap :
    ∃ t, btTierInit oneMegabyte (fun _ => none) allThere = some t ∧
      (∃ w, run (step oneMegabyte) (start t) [.alloc .hot 100 none] = some w ∧
        ⟨.hot, 2 ^ 20 + 2047 * 64, 100, .slab 0⟩ ∈ w.out ∧ ¬ Sound oneMegabyte w) ∧
      ∃ w, run (step oneMegabyte) (start t) [.alloc .warm 64 none,
          .alloc .warm 18446744073709551552 none, .alloc .warm 64 none] = some w ∧
        w.out = [⟨.warm, 2 ^ 30, 64, .warm⟩, ⟨.warm, 2 ^ 30 + 64, 2 ^ 64 - 64, .warm⟩,
          ⟨.warm, 2 ^ 30, 64, .warm⟩] ∧ ¬ Sound oneMegabyte w := by
  have hlarge : ∀ w : World, ⟨.hot, 2 ^ 20 + 2047 * 64, 100, .slab 0⟩ ∈ w.out →
      ¬ Sound oneMegabyte w := by
    intro w hr h
    have hbounds := bounds_of_bytes_subset (h.within _ hr).2 (by decide)
    revert hbounds
    decide
  have htwice : ∀ w : World, w.out = [⟨.warm, 2 ^ 30, 64, .warm⟩,
      ⟨.warm, 2 ^ 30 + 64, 2 ^ 64 - 64, .warm⟩, ⟨.warm, 2 ^ 30, 64, .warm⟩] →
      ¬ Sound oneMegabyte w := by
    intro w hout h
    have hapart := h.apart
    rw [hout] at hapart
    have hdisj := (List.pairwise_cons.1 hapart).1 ⟨.warm, 2 ^ 30, 64, .warm⟩ (by decide)
    exact absurd (bytes_disjoint_iff.1 hdisj) (by decide)
  exact ⟨_, rfl, ⟨_, rfl, by decide, hlarge _ (by decide)⟩, _, rfl, by decide, htwice _ (by decide)⟩

end MemoryTier
