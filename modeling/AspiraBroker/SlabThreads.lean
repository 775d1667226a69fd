/-
**The slab allocator, shared by threads.**

`bt_slab_alloc` and `bt_slab_free` swap the head of the free list with compare-and-swap, and the
hot tier shares its slabs between all threads.  Here any number of threads call them at once, each
freeing blocks that it holds; a load, a read of the first word of a block, a write of it and a swap
are steps of their own.  The slab is an instance of the lock-free stack of `TreiberStack`, with
pushes of one block that load the head again when their swap fails.

The comment in `bt_slab_alloc` calls the swap safe because only its owner pushes a block back.  That
does not help a thread which has read the first word of a block that another thread pops and pushes
back before the swap.

Main definitions:

* `SlabAllocator.Call`, `SlabAllocator.threadStep` — the threads and their steps;
* `SlabAllocator.threads` — the slab after `bt_slab_init`, with no call in progress.

Main results:

* `SlabAllocator.alloc_alone`, `SlabAllocator.free_alone` — **a call that is not interrupted is the
  function of one thread**;
* `SlabAllocator.blocks_have_one_owner_iff` — **every block has one owner exactly as long as no
  alloc swaps in a word that is out of date**.
-/

import AspiraBroker.SlabAllocator
import AspiraBroker.TreiberStack

set_option relaxedAutoImplicit false
set_option autoImplicit false

namespace SlabAllocator

open AlignedCells LinkedChain Transition TreiberStack

universe u

variable {κ : Type u}

/-- What a thread may do next. -/
inductive Call (κ : Type u)
  | btSlabAlloc (k : κ)
  | btSlabFree (k : κ) (ptr : ℕ)
  /-- the thread overwrites the first word of a block it holds -/
  | write (k : κ) (p : ℕ) (w : Option ℕ)
  /-- the thread takes the next step of its call -/
  | go (k : κ)

/-- The calls as operations on the stack of free blocks: a free whose pointer fails the range test
returns at once. -/
def Call.act (L : Layout) : Call κ → Option (Act κ ℕ)
  | .btSlabAlloc k => some (.alloc k)
  | .btSlabFree k ptr => if L.inRange ptr then some (.free k ⟨ptr, []⟩) else none
  | .write k p w => some (.write k p w)
  | .go k => some (.go k)

/-- No call is in progress and no block is held. -/
def threads (κ : Type u) (s : Slab) : Sys κ ℕ := ⟨s.freeList, s.words, fun _ => .idle, fun _ => []⟩

/-- After `bt_slab_init` all blocks are on the free list. -/
theorem threads_inv {mem : Region} {words : ℕ → Option ℕ} {blockSize : ℕ} {s : Slab}
    (h : btSlabInit mem words blockSize = some s) : Inv {p | p ∈ s.blocks} (threads κ s) := by
  have hchain := (btSlabInit_parted h).chain
  refine ⟨⟨s.blocks.reverse, hchain, ?_, ?_, ?_⟩, fun _ => trivial⟩
  · intro p
    constructor
    · intro hp
      exact ⟨none, List.mem_reverse.2 hp⟩
    · rintro ⟨o, hp⟩
      cases o with
      | none => exact List.mem_reverse.1 hp
      | some k => cases hp
  · intro p o o' hp hp'
    cases o with
    | none =>
        cases o' with
        | none => rfl
        | some k => cases hp'
    | some k => cases hp
  · intro o
    cases o with
    | none => exact hchain.nodup
    | some k => exact List.nodup_nil

section Steps

variable [DecidableEq κ]

/-- One step of one thread. -/
def threadStep (L : Layout) (σ : Sys κ ℕ) (c : Call κ) : Option (Sys κ ℕ) :=
  stepBy true (Call.act L) σ c

/-- Every block is once on the free list, or held or being freed by one thread. -/
def OwnedOnce (L : Layout) (σ : Sys κ ℕ) : Prop := σ.Sound {p | p ∈ L.blocks}

/-- The step is not an alloc that returns a block which a thread holds or is freeing. -/
def ReturnsUnowned (L : Layout) (σ : Sys κ ℕ) (c : Call κ) : Prop :=
  MeetsBy PopsUnowned (Call.act L) σ c

/-- The step is not an alloc that succeeds although the first word of its block is no longer the one
it has read. -/
def ReadsLast (L : Layout) (σ : Sys κ ℕ) (c : Call κ) : Prop := MeetsBy Fresh (Call.act L) σ c

instance (L : Layout) (σ : Sys κ ℕ) (c : Call κ) : Decidable (ReadsLast L σ c) :=
  inferInstanceAs (Decidable (MeetsBy Fresh (Call.act L) σ c))

/-! ### Calls that are not interrupted -/

section Alone

variable {s : Slab} {σ : Sys κ ℕ} {k : κ}

/-- **An alloc that is not interrupted is `bt_slab_alloc` of one thread.** -/
theorem alloc_alone (hhead : σ.head = s.freeList) (hnext : σ.next = s.words)
    (hpc : σ.pc k = .idle) :
    ∃ n τ, run (threadStep s.toLayout) σ (.btSlabAlloc k :: List.replicate n (.go k)) = some τ ∧
      τ.head = (btSlabAlloc s).1.freeList ∧ τ.next = (btSlabAlloc s).1.words ∧
      τ.holds k = (btSlabAlloc s).2.toList ++ σ.holds k ∧ τ.pc k = .idle := by
  unfold btSlabAlloc
  split
  · next hnone =>
      refine ⟨1, σ.goto k .idle, ?_, hhead, hnext, rfl, goto_pc⟩
      exact (run_stepBy rfl σ).trans (pop_alone_none true hpc (hhead.trans hnone))
  · next head hsome =>
      refine ⟨3, σ.take k head (σ.next head), ?_, ?_, hnext, ?_, goto_pc⟩
      · exact (run_stepBy rfl σ).trans (pop_alone true hpc (hhead.trans hsome))
      · exact congrFun hnext head
      · simp [Sys.take]

/-- **A free that is not interrupted is `bt_slab_free` of one thread.** -/
theorem free_alone {p : ℕ} (hhead : σ.head = s.freeList) (hnext : σ.next = s.words)
    (hpc : σ.pc k = .idle) (hp : p ∈ σ.holds k) (hrange : s.inRange p = true) :
    ∃ τ, run (threadStep s.toLayout) σ [.btSlabFree k p, .go k, .go k, .go k] = some τ ∧
      τ.head = (btSlabFree s (some p)).freeList ∧ τ.next = (btSlabFree s (some p)).words ∧
      τ.holds k = (σ.holds k).erase p ∧ τ.pc k = .idle := by
  have hacts : [Call.btSlabFree k p, .go k, .go k, .go k].map (Call.act s.toLayout) =
      [Act.free k ⟨p, []⟩, .go k, .go k, .go k].map some := by
    simp [Call.act, hrange]
  refine ⟨_, (run_stepBy hacts σ).trans (push_alone true hpc hp), ?_, ?_, ?_, ?_⟩
  · rw [btSlabFree, if_pos hrange]
  · rw [btSlabFree, if_pos hrange, hhead, hnext]
  · simp
  · simp

end Alone

/-- **Every block has one owner exactly as long as no alloc swaps in a word that is out of date**:
for any number of threads, any interleaving, and every slab that `bt_slab_init` sets up. -/
theorem blocks_have_one_owner_iff (mem : Region) (words : ℕ → Option ℕ) {blockSize : ℕ} {s : Slab}
    (hinit : btSlabInit mem words blockSize = some s) (calls : List (Call κ)) :
    (Throughout (threadStep s.toLayout) (OwnedOnce s.toLayout) (threads κ s) calls ∧
      Along (threadStep s.toLayout) (ReturnsUnowned s.toLayout) (threads κ s) calls) ↔
    Along (threadStep s.toLayout) (ReadsLast s.toLayout) (threads κ s) calls :=
  sound_iff (threads_inv hinit) true (Call.act s.toLayout) calls

end Steps

/-- Memory for three blocks of 64 bytes: 4096, 4160 and 4224, which is the first one to go. -/
def threeBlocks : Region := ⟨4096, 192, by decide, by decide⟩

/-- A thread allocates a block, frees it and allocates again while no other thread is in a call. -/
def inTurn : List (Call Bool) :=
  [.btSlabAlloc true, .go true, .go true, .go true, .btSlabFree true 4224, .go true, .go true,
    .go true, .btSlabAlloc false, .go false, .go false, .go false]

/-- The hypothesis of `SlabAllocator.blocks_have_one_owner_iff` holds of 192 bytes cut into three
blocks, and two threads that take turns keep to the condition. -/
theorem blocks_have_one_owner_in_turn :
    ∃ s, btSlabInit threeBlocks (fun _ => none) 64 = some s ∧
      Throughout (threadStep s.toLayout) (OwnedOnce s.toLayout) (threads Bool s) inTurn ∧
      Along (threadStep s.toLayout) (ReturnsUnowned s.toLayout) (threads Bool s) inTurn :=
  ⟨_, rfl, (blocks_have_one_owner_iff threeBlocks (fun _ => none)
    (by rfl : btSlabInit threeBlocks (fun _ => none) 64 = some _) inTurn).2 (by decide)⟩

/-- The thread `false` reads the first word of the block 4224, which is 4160.  The thread `true`
allocates both, writes into 4160 and frees 4224; then the swap of the first thread succeeds, and its
next alloc returns 4160. -/
def poppedAndPushedBack : List (Call Bool) :=
  [.btSlabAlloc false, .go false, .go false,
    .btSlabAlloc true, .go true, .go true, .go true,
    .btSlabAlloc true, .go true, .go true, .go true,
    .write true 4160 none,
    .btSlabFree true 4224, .go true, .go true, .go true,
    .go false,
    .btSlabAlloc false, .go false, .go false, .go false]

/-- Two threads end up with the block 4160, and the block 4096 is lost: no thread owns it and the
free list is empty. -/
theorem block_has_two_owners :
    ∃ (s : Slab) (τ : Sys Bool ℕ),
      btSlabInit threeBlocks (fun _ => none) 64 = some s ∧
      run (threadStep s.toLayout) (threads Bool s) poppedAndPushedBack = some τ ∧
      4160 ∈ τ.holds false ∧ 4160 ∈ τ.holds true ∧
      4096 ∈ s.blocks ∧ τ.head = none ∧ (∀ k, 4096 ∉ τ.owned k) ∧
      ¬ OwnedOnce s.toLayout τ := by
  refine ⟨_, _, rfl, rfl, by decide, by decide, by decide, by decide, by decide, ?_⟩
  exact not_sound_of_shared (a := 4160) (j := false) (k := true) (by decide) (by decide) (by decide)

end SlabAllocator
