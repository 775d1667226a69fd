/-
**The slab allocator.**

`bt_slab_t` cuts a region of memory into blocks of one size, rounded up to the cache line.  The free
blocks are linked through their own first words; the head of the list and two counters are kept
beside.  An alloc takes the first block of the list and a free puts a block back in front; both are
written with compare-and-swap, which succeeds at once when one thread uses the slab alone.  That use
is the subject of this module: a client that frees blocks it holds, overwrites the blocks it holds,
and resets the slab whenever it likes.

Main definitions:

* `SlabAllocator.Slab`, `SlabAllocator.btSlabInit`, `SlabAllocator.btSlabAlloc`,
  `SlabAllocator.btSlabFree`, `SlabAllocator.btSlabReset` — the allocator;
* `SlabAllocator.Client`, `SlabAllocator.step` — the slab in the hands of one thread;
* `SlabAllocator.Exact` — what an exact block allocator is;
* `SlabAllocator.Parted` — the free list and the held blocks are all the blocks;
* `SlabAllocator.Tidy` — the invariant: the slab is parted, and the counters count the parts.

Main results:

* `SlabAllocator.linkBlocks_chain` — the loop of `bt_slab_init` and `bt_slab_reset` links all the
  blocks;
* `SlabAllocator.btSlabInit_fits` — the blocks lie in the memory;
* `SlabAllocator.step_tidy` — one call keeps the invariant;
* `SlabAllocator.exact_throughout` — **the slab is an exact block allocator**.
-/

import AspiraBroker.AlignedCells
import AspiraBroker.LinkedChain
import AspiraBroker.TransitionRuns

set_option relaxedAutoImplicit false
set_option autoImplicit false

namespace SlabAllocator

open AlignedCells LinkedChain Transition

/-! ### The allocator -/

/-- `bt_slab_t`: where the blocks are. -/
structure Layout where
  base : ℕ
  blockSize : ℕ
  numBlocks : ℕ
  alignedSize : ℕ
  deriving DecidableEq

/-- `bt_slab_t`, with the first word of every block.  The counters have 32 bits. -/
structure Slab extends Layout where
  freeList : Option ℕ
  allocCount : ℕ
  freeCount : ℕ
  words : ℕ → Option ℕ

/-- The addresses of the blocks. -/
def Layout.blocks (L : Layout) : List ℕ := cells L.base L.alignedSize L.numBlocks

/-- `aligned_size`: the block size in whole cache lines, with room for the pointer of the free
list. -/
def alignedBlock (blockSize : ℕ) : ℕ :=
  if cacheLines blockSize < 8 then 8 else cacheLines blockSize

/-- The first `n` turns of the loop that links the blocks into the free list. -/
def linkBlocks (s : Slab) : ℕ → Slab
  | 0 => s
  | i + 1 =>
      let s' := linkBlocks s i
      let block := cell s.base s.alignedSize i
      { s' with
        words := Function.update s'.words block s'.freeList
        freeList := some block
        freeCount := (s'.freeCount + 1) % 2 ^ 32 }

/-- `bt_slab_init` over the memory `mem`, which holds `words`. -/
def btSlabInit (mem : Region) (words : ℕ → Option ℕ) (blockSize : ℕ) : Option Slab :=
  if mem.size = 0 ∨ blockSize = 0 then none
  else
    let aligned := alignedBlock blockSize
    let numBlocks := mem.size / aligned
    if numBlocks = 0 then none
    else some (linkBlocks ⟨⟨mem.base, blockSize, numBlocks, aligned⟩, none, 0, 0, words⟩ numBlocks)

/-- `bt_slab_alloc`: the slab after the call, and the result. -/
def btSlabAlloc (s : Slab) : Slab × Option ℕ :=
  match s.freeList with
  | none => (s, none)
  | some head =>
      ({ s with
          freeList := s.words head
          allocCount := (s.allocCount + 1) % 2 ^ 32
          freeCount := (s.freeCount + (2 ^ 32 - 1)) % 2 ^ 32 }, some head)

/-- The range test of `bt_slab_free`, on 64-bit addresses. -/
def Layout.inRange (L : Layout) (p : ℕ) : Bool :=
  L.base ≤ p && p < (L.base + L.numBlocks * L.alignedSize) % 2 ^ 64

/-- `bt_slab_free`. -/
def btSlabFree (s : Slab) (ptr : Option ℕ) : Slab :=
  match ptr with
  | none => s
  | some p =>
      if s.inRange p then
        { s with
          words := Function.update s.words p s.freeList
          freeList := some p
          freeCount := (s.freeCount + 1) % 2 ^ 32
          allocCount := if 0 < s.allocCount then s.allocCount - 1 else s.allocCount }
      else s

/-- The slab with an empty free list and counters of `0`. -/
def Slab.cleared (s : Slab) : Slab := { s with freeList := none, allocCount := 0, freeCount := 0 }

/-- `bt_slab_reset`. -/
def btSlabReset (s : Slab) : Slab := linkBlocks s.cleared s.numBlocks

/-! ### The client -/

/-- The slab, and the blocks that its client holds. -/
structure Client where
  slab : Slab
  held : List ℕ

/-- What the client does. -/
inductive Op
  | alloc
  /-- frees a block it holds -/
  | free (p : ℕ)
  /-- overwrites the first word of a block it holds -/
  | write (p : ℕ) (w : Option ℕ)
  | reset

/-- One operation of the client.  A reset makes it forget the blocks it holds. -/
def step (c : Client) : Op → Option Client
  | .alloc =>
      let r := btSlabAlloc c.slab
      some ⟨r.1, r.2.toList ++ c.held⟩
  | .free p =>
      if p ∈ c.held then some ⟨btSlabFree c.slab (some p), c.held.erase p⟩ else none
  | .write p w =>
      if p ∈ c.held then some { c with slab.words := Function.update c.slab.words p w } else none
  | .reset => some ⟨btSlabReset c.slab, []⟩

/-- The slab is an exact allocator of the blocks of `L`, which lie in `mem`. -/
structure Exact (mem : Region) (L : Layout) (c : Client) : Prop where
  /-- the held blocks and the free list are the blocks, without repetition -/
  parts : ∃ l, Chain c.slab.words c.slab.freeList l ∧ (c.held ++ l).Perm L.blocks
  nodup : L.blocks.Nodup
  length : L.blocks.length = L.numBlocks
  inside : ∀ p ∈ L.blocks, bytes p L.blockSize ⊆ bytes mem.base mem.size
  apart : ∀ p ∈ L.blocks, ∀ q ∈ L.blocks, p ≠ q →
    Disjoint (bytes p L.blockSize) (bytes q L.blockSize)
  allocCount : c.slab.allocCount = c.held.length
  total : c.slab.allocCount + c.slab.freeCount = L.numBlocks
  null_iff : (btSlabAlloc c.slab).2 = none ↔ ∀ p ∈ L.blocks, p ∈ c.held

/-! ### The blocks -/

/-- The blocks lie in the memory, and are large enough. -/
structure Layout.Fits (L : Layout) (mem : Region) : Prop where
  base : L.base = mem.base
  pos : 0 < L.alignedSize
  room : L.numBlocks * L.alignedSize ≤ mem.size
  wide : L.blockSize ≤ L.alignedSize

section Blocks

variable {mem : Region} {L : Layout} {p q : ℕ}

theorem Layout.Fits.inside (h : L.Fits mem) (hp : p ∈ L.blocks) :
    bytes p L.blockSize ⊆ bytes mem.base mem.size := by
  rw [← h.base]
  exact cells_subset h.wide h.room hp

theorem Layout.Fits.apart (h : L.Fits mem) (hp : p ∈ L.blocks) (hq : q ∈ L.blocks) (hpq : p ≠ q) :
    Disjoint (bytes p L.blockSize) (bytes q L.blockSize) :=
  cells_disjoint h.wide h.wide hp hq hpq

/-- The range test lets every block pass. -/
theorem Layout.Fits.inRange (h : L.Fits mem) (hp : p ∈ L.blocks) : L.inRange p = true := by
  obtain ⟨hlo, hhi⟩ := cells_bounds hp
  have htop := mem.top
  have hbase := h.base
  have hroom := h.room
  have hpos := h.pos
  have hmod : (L.base + L.numBlocks * L.alignedSize) % 2 ^ 64 =
      L.base + L.numBlocks * L.alignedSize := Nat.mod_eq_of_lt (by omega)
  simp only [Layout.inRange, hmod, Bool.and_eq_true, decide_eq_true_eq]
  omega

end Blocks

/-! ### The link loop -/

section Link

variable (s : Slab) (n : ℕ)

@[simp] theorem linkBlocks_toLayout : (linkBlocks s n).toLayout = s.toLayout := by
  induction n with
  | zero => rfl
  | succ n ih => exact ih

@[simp] theorem linkBlocks_allocCount : (linkBlocks s n).allocCount = s.allocCount := by
  induction n with
  | zero => rfl
  | succ n ih => exact ih

theorem linkBlocks_freeCount (hs : s.freeCount = 0) (hn : n < 2 ^ 32) :
    (linkBlocks s n).freeCount = n := by
  induction n with
  | zero => exact hs
  | succ n ih =>
      change ((linkBlocks s n).freeCount + 1) % 2 ^ 32 = n + 1
      rw [ih (by omega), Nat.mod_eq_of_lt hn]

/-- **The loop links the blocks**, the last one first. -/
theorem linkBlocks_chain (hs : s.freeList = none) (hpos : 0 < s.alignedSize) :
    Chain (linkBlocks s n).words (linkBlocks s n).freeList
      (cells s.base s.alignedSize n).reverse :=
  Chain.of_pushes (fun i => (linkBlocks s i).words) (fun i => (linkBlocks s i).freeList)
    (cell_injective hpos) hs (fun _ => rfl) (fun _ => rfl) n

end Link

/-! ### The invariant -/

/-- The slab has the layout `L`, the blocks of `l` are its free list, and they and the held blocks
are all blocks. -/
structure Parted (L : Layout) (s : Slab) (held l : List ℕ) : Prop where
  layout : s.toLayout = L
  chain : Chain s.words s.freeList l
  parts : (held ++ l).Perm L.blocks

namespace Parted

variable {mem : Region} {L : Layout} {s : Slab} {held held' l : List ℕ} {p : ℕ}

theorem length (h : Parted L s held l) : held.length + l.length = L.numBlocks := by
  rw [← List.length_append, h.parts.length_eq]
  exact length_cells

/-- The order of the held blocks does not matter. -/
theorem of_perm (h : Parted L s held l) (hperm : held'.Perm held) : Parted L s held' l :=
  ⟨h.layout, h.chain, (hperm.append_right l).trans h.parts⟩

theorem held_mem (h : Parted L s held l) (hp : p ∈ held) : p ∈ L.blocks :=
  h.parts.mem_iff.1 (List.mem_append_left _ hp)

/-- A slab with blocks of some size is a free list with its users. -/
theorem shared (h : Parted L s held l) (hpos : 0 < L.alignedSize) :
    Shared s.words s.freeList held l L.blocks :=
  ⟨h.chain, h.parts, cells_nodup hpos⟩

/-- An alloc finds no free block, or takes the first one. -/
theorem alloc (h : Parted L s held l) :
    (s.freeList = none ∧ l = [] ∧ btSlabAlloc s = (s, none)) ∨
    ∃ p t, s.freeList = some p ∧ l = p :: t ∧ (btSlabAlloc s).2 = some p ∧
      Parted L (btSlabAlloc s).1 (p :: held) t := by
  have hchain := h.chain
  unfold btSlabAlloc
  cases hlist : s.freeList with
  | none =>
      rw [hlist] at hchain
      exact .inl ⟨rfl, hchain.eq_nil, rfl⟩
  | some p =>
      rw [hlist] at hchain
      obtain ⟨t, rfl, ht⟩ := hchain.exists_cons
      exact .inr ⟨p, t, rfl, rfl, rfl, h.layout, ht, List.perm_middle.symm.trans h.parts⟩

/-- A free puts a held block in front of the free list. -/
theorem free (h : Parted L s held l) (hfits : L.Fits mem) (hp : p ∈ held) :
    Parted L (btSlabFree s (some p)) (held.erase p) (p :: l) := by
  have hrange : s.inRange p = true := by
    rw [h.layout]
    exact hfits.inRange (h.held_mem hp)
  rw [btSlabFree, if_pos hrange]
  have hshared := (h.shared hfits.pos).push hp
  exact ⟨h.layout, hshared.chain, hshared.parts⟩

/-- What is written into a held block does not concern the free list. -/
theorem write (h : Parted L s held l) (hpos : 0 < L.alignedSize) (hp : p ∈ held) (w : Option ℕ) :
    Parted L { s with words := Function.update s.words p w } held l :=
  ⟨h.layout, ((h.shared hpos).write hp w).chain, h.parts⟩

end Parted

/-- The parts of the slab, and the counters that count them. -/
structure Tidy (L : Layout) (c : Client) (l : List ℕ) : Prop extends
    Parted L c.slab c.held l where
  allocCount : c.slab.allocCount = c.held.length
  freeCount : c.slab.freeCount = l.length

section Invariant

variable {mem : Region} {L : Layout} {c c' : Client} {l : List ℕ} {p : ℕ}

/-- An alloc returns `NULL` exactly if no block is free. -/
theorem Tidy.null_iff (h : Tidy L c l) : (btSlabAlloc c.slab).2 = none ↔ l = [] := by
  rcases h.toParted.alloc with ⟨-, rfl, hr⟩ | ⟨p, t, -, rfl, hr, -⟩
  · simp [hr]
  · simp [hr]

/-- An alloc takes the first block of the free list. -/
theorem Tidy.alloc (h : Tidy L c l) (hn : L.numBlocks < 2 ^ 32) :
    ∃ l', Tidy L ⟨(btSlabAlloc c.slab).1, (btSlabAlloc c.slab).2.toList ++ c.held⟩ l' := by
  have hlen := h.length
  rcases h.toParted.alloc with ⟨-, -, hr⟩ | ⟨p, t, hlist, rfl, hr, hparted⟩
  · refine ⟨l, ?_⟩
    rw [hr]
    exact h
  · rw [List.length_cons] at hlen
    rw [hr]
    refine ⟨t, hparted, ?_, ?_⟩
    · simp only [btSlabAlloc, hlist, h.allocCount, Option.toList_some, List.length_append,
        List.length_singleton]
      omega
    · simp only [btSlabAlloc, hlist, h.freeCount, List.length_cons]
      omega

/-- A free puts a held block in front of the free list. -/
theorem Tidy.free (h : Tidy L c l) (hfits : L.Fits mem) (hn : L.numBlocks < 2 ^ 32)
    (hp : p ∈ c.held) : Tidy L ⟨btSlabFree c.slab (some p), c.held.erase p⟩ (p :: l) := by
  have hlen := h.length
  have hheld := List.length_pos_of_mem hp
  have hrange : c.slab.inRange p = true := by
    rw [h.layout]
    exact hfits.inRange (h.held_mem hp)
  refine ⟨h.toParted.free hfits hp, ?_, ?_⟩
  · simp only [btSlabFree, hrange, if_true, h.allocCount, if_pos hheld,
      List.length_erase_of_mem hp]
  · simp only [btSlabFree, hrange, if_true, h.freeCount, List.length_cons]
    omega

/-- The loop of `bt_slab_init` and `bt_slab_reset` leaves all blocks free. -/
theorem parted_linkBlocks {s : Slab} (hlist : s.freeList = none) (hpos : 0 < s.alignedSize) :
    Parted s.toLayout (linkBlocks s s.numBlocks) [] s.blocks.reverse where
  layout := linkBlocks_toLayout s s.numBlocks
  chain := linkBlocks_chain s s.numBlocks hlist hpos
  parts := List.reverse_perm _

theorem tidy_linkBlocks {s : Slab} (hlist : s.freeList = none) (halloc : s.allocCount = 0)
    (hfree : s.freeCount = 0) (hpos : 0 < s.alignedSize) (hn : s.numBlocks < 2 ^ 32) :
    Tidy s.toLayout ⟨linkBlocks s s.numBlocks, []⟩ s.blocks.reverse where
  toParted := parted_linkBlocks hlist hpos
  allocCount := (linkBlocks_allocCount s s.numBlocks).trans halloc
  freeCount := by
    rw [List.length_reverse]
    exact (linkBlocks_freeCount s s.numBlocks hfree hn).trans length_cells.symm

/-- **One operation keeps the invariant.** -/
theorem step_tidy (h : Tidy L c l) (hfits : L.Fits mem) (hn : L.numBlocks < 2 ^ 32) {op : Op}
    (hstep : step c op = some c') : ∃ l', Tidy L c' l' := by
  cases op with
  | alloc =>
      obtain rfl := Option.some.inj hstep
      exact h.alloc hn
  | free p =>
      simp only [step, Option.ite_none_right_eq_some, Option.some.injEq] at hstep
      obtain ⟨hp, rfl⟩ := hstep
      exact ⟨p :: l, h.free hfits hn hp⟩
  | write p w =>
      simp only [step, Option.ite_none_right_eq_some, Option.some.injEq] at hstep
      obtain ⟨hp, rfl⟩ := hstep
      exact ⟨l, h.toParted.write hfits.pos hp w, h.allocCount, h.freeCount⟩
  | reset =>
      obtain rfl := Option.some.inj hstep
      obtain rfl := h.layout
      exact ⟨_, tidy_linkBlocks (s := c.slab.cleared) rfl rfl rfl hfits.pos hn⟩

/-- The invariant makes the slab an exact allocator. -/
theorem Tidy.exact (h : Tidy L c l) (hfits : L.Fits mem) : Exact mem L c where
  parts := ⟨l, h.chain, h.parts⟩
  nodup := cells_nodup hfits.pos
  length := length_cells
  inside _ hp := hfits.inside hp
  apart _ hp _ hq hpq := hfits.apart hp hq hpq
  allocCount := h.allocCount
  total := by rw [h.allocCount, h.freeCount, h.length]
  null_iff := by
    rw [h.null_iff]
    constructor
    · rintro rfl p hp
      simpa using h.parts.mem_iff.2 hp
    · intro hall
      refine List.eq_nil_iff_forall_not_mem.2 fun p hp => ?_
      have hblock := h.parts.mem_iff.1 (List.mem_append_right _ hp)
      exact (h.shared hfits.pos).not_mem_of_held (hall p hblock) hp

/-! ### Initialisation -/

theorem alignedBlock_pos (blockSize : ℕ) : 0 < alignedBlock blockSize := by
  unfold alignedBlock
  split
  · decide
  · omega

theorem le_alignedBlock {blockSize : ℕ} (hsize : blockSize ≤ 2 ^ 63) :
    blockSize ≤ alignedBlock blockSize := by
  have hle : blockSize ≤ cacheLines blockSize := le_cacheLines (by omega)
  unfold alignedBlock
  split
  · omega
  · exact hle

/-- What `bt_slab_init` makes of the memory. -/
theorem btSlabInit_spec {words : ℕ → Option ℕ} {blockSize : ℕ} {s : Slab}
    (h : btSlabInit mem words blockSize = some s) :
    ∃ L : Layout, L.base = mem.base ∧ L.blockSize = blockSize ∧
      L.alignedSize = alignedBlock blockSize ∧ L.numBlocks = mem.size / alignedBlock blockSize ∧
      0 < L.numBlocks ∧ s = linkBlocks ⟨L, none, 0, 0, words⟩ L.numBlocks := by
  unfold btSlabInit at h
  split at h
  · cases h
  · simp only at h
    split at h
    · cases h
    · next hnum =>
        exact ⟨_, rfl, rfl, rfl, rfl, Nat.pos_of_ne_zero hnum, (Option.some.inj h).symm⟩

/-- The blocks lie in the memory, unless rounding up the block size has wrapped around. -/
theorem btSlabInit_fits {words : ℕ → Option ℕ} {blockSize : ℕ} {s : Slab}
    (h : btSlabInit mem words blockSize = some s) (hsize : blockSize ≤ 2 ^ 63) :
    s.toLayout.Fits mem := by
  obtain ⟨L, hbase, hblock, haligned, hnum, -, rfl⟩ := btSlabInit_spec h
  rw [linkBlocks_toLayout]
  refine ⟨hbase, ?_, ?_, ?_⟩
  · rw [haligned]
    exact alignedBlock_pos blockSize
  · rw [haligned, hnum]
    exact Nat.div_mul_le_self _ _
  · rw [hblock, haligned]
    exact le_alignedBlock hsize

/-- `bt_slab_init` leaves all blocks free, however many there are. -/
theorem btSlabInit_parted {words : ℕ → Option ℕ} {blockSize : ℕ} {s : Slab}
    (h : btSlabInit mem words blockSize = some s) :
    Parted s.toLayout s [] s.blocks.reverse := by
  obtain ⟨L, -, -, haligned, -, -, rfl⟩ := btSlabInit_spec h
  rw [linkBlocks_toLayout]
  refine parted_linkBlocks rfl ?_
  rw [haligned]
  exact alignedBlock_pos blockSize

/-- Up to `2 ^ 32` of them are counted. -/
theorem btSlabInit_tidy {words : ℕ → Option ℕ} {blockSize : ℕ} {s : Slab}
    (h : btSlabInit mem words blockSize = some s) (hn : s.numBlocks < 2 ^ 32) :
    Tidy s.toLayout ⟨s, []⟩ s.blocks.reverse := by
  obtain ⟨L, -, -, haligned, -, -, rfl⟩ := btSlabInit_spec h
  rw [linkBlocks_toLayout] at hn ⊢
  refine tidy_linkBlocks rfl rfl rfl ?_ hn
  rw [haligned]
  exact alignedBlock_pos blockSize

end Invariant

/-- **The slab is an exact block allocator**: for every block size up to `2 ^ 63`, every memory that
makes less than `2 ^ 32` blocks, and every sequence of allocs, frees of held blocks, writes into
held blocks and resets. -/
theorem exact_throughout (mem : Region) (words : ℕ → Option ℕ) {blockSize : ℕ} {s : Slab}
    (hsize : blockSize ≤ 2 ^ 63) (hinit : btSlabInit mem words blockSize = some s)
    (hblocks : s.numBlocks < 2 ^ 32) (ops : List Op) :
    s.blockSize = blockSize ∧ Throughout step (Exact mem s.toLayout) ⟨s, []⟩ ops := by
  have hfits := btSlabInit_fits hinit hsize
  constructor
  · obtain ⟨L, -, hblock, -, -, -, rfl⟩ := btSlabInit_spec hinit
    rw [linkBlocks_toLayout]
    exact hblock
  · refine throughout_of_invariant (G := fun _ _ => True)
      (I := fun c => ∃ l, Tidy s.toLayout c l) ?_ ?_ ⟨_, btSlabInit_tidy hinit hblocks⟩
      (along_of_forall (fun _ _ => trivial) _ _)
    · rintro c op c' ⟨l, h⟩ - hstep
      exact step_tidy h hfits hblocks hstep
    · rintro c ⟨l, h⟩
      exact h.exact hfits

/-- The hypotheses of `SlabAllocator.exact_throughout` hold of 128 bytes cut into two blocks of 50:
the client empties the slab, writes into a block, gives it back, gets it again and resets. -/
theorem exact_throughout_two_blocks :
    ∃ s, btSlabInit ⟨4096, 128, by decide, by decide⟩ (fun _ => none) 50 = some s ∧
      s.numBlocks = 2 ∧
      Throughout step (Exact ⟨4096, 128, by decide, by decide⟩ s.toLayout) ⟨s, []⟩
        [.alloc, .alloc, .alloc, .write 4160 (some 7), .free 4160, .alloc, .reset] :=
  ⟨_, rfl, rfl, (exact_throughout _ _ (show 50 ≤ 2 ^ 63 by decide) rfl (by decide) _).2⟩

end SlabAllocator
