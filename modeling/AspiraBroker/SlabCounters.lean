/-
**The counters of the slab, shared by threads.**

`bt_slab_alloc` counts itself after its swap: one more in `alloc_count`, then one less in
`free_count`.  `bt_slab_free` does the reverse, and does not subtract from an `alloc_count` that it
has loaded as zero.  Each of these is an atomic step of its own, so that other threads see and
change the counters in between.  The threads may also pass blocks on, and so a block may be freed by
another thread than the one that allocated it.

The counters lag behind, and `free_count` may even fall below zero and wrap around for a moment, if
a block that was just freed is allocated and counted before the free counts itself.  But nothing is
lost: the test of `alloc_count` never fails, and in every state in which no call is in progress
`bt_slab_stats` reports exactly the blocks that the threads hold.  `alloc_count` may run ahead of
the blocks in use by one for each thread, and must have room for that.

Main definitions:

* `SlabAllocator.Pending`, `SlabAllocator.counting` — the counter updates after the swap;
* `SlabAllocator.Move`, `SlabAllocator.countedStep` — the threads, with the counters;
* `SlabAllocator.btSlabStats` — the statistics;
* `SlabAllocator.Counted` — the invariant: each counter is off by the updates that are pending.

Main results:

* `SlabAllocator.stats_exact_when_quiet` — **the statistics are exact whenever no call is in
  progress**, and no decrement is ever skipped;
* `SlabAllocator.steps_bounded_by_calls` — **the slab is lock-free**: `n` threads take at most
  `3 * n + 3` steps for each call, in every interleaving, and are never stuck inside of one.
-/

import AspiraBroker.SlabThreads
import AspiraBroker.TreiberClients
import Mathlib.Algebra.BigOperators.Ring.Finset
import Mathlib.Algebra.Order.BigOperators.Ring.Finset

set_option relaxedAutoImplicit false
set_option autoImplicit false

namespace SlabAllocator

open AlignedCells LinkedChain Transition TreiberStack

universe u

/-! ### The machine -/

/-- The counter updates that a call has left to do. -/
inductive Pending
  /-- `alloc`: about to add to `alloc_count` -/
  | allocAdd
  /-- `alloc`: about to subtract from `free_count` -/
  | allocSub
  /-- `free`: about to add to `free_count` -/
  | freeAdd
  /-- `free`: about to load `alloc_count` -/
  | freeLoad
  /-- `free`: `alloc_count` was not zero, about to subtract from it -/
  | freeSub
  deriving DecidableEq

/-- The counters, of 32 bits. -/
structure Counters where
  allocCount : ℕ
  freeCount : ℕ
  deriving DecidableEq

/-- What `bt_slab_alloc` and `bt_slab_free` do after their swap. -/
def counting : Epilogue Pending Counters where
  afterPop := .allocAdd
  afterPush _ := .freeAdd
  tick
    | .allocAdd, c => (some .allocSub, { c with allocCount := (c.allocCount + 1) % 2 ^ 32 })
    | .allocSub, c => (none, { c with freeCount := (2 ^ 32 - 1 + c.freeCount) % 2 ^ 32 })
    | .freeAdd, c => (some .freeLoad, { c with freeCount := (c.freeCount + 1) % 2 ^ 32 })
    | .freeLoad, c => (if 0 < c.allocCount then some .freeSub else none, c)
    | .freeSub, c => (none, { c with allocCount := (2 ^ 32 - 1 + c.allocCount) % 2 ^ 32 })

variable {κ : Type u}

/-- What may happen: a thread acts, or passes a block that it holds on to another thread. -/
abbrev Move (κ : Type u) := TreiberStack.Move (Call κ) κ ℕ

/-- The slab after `bt_slab_init`, with no call in progress. -/
def counted (κ : Type u) (s : Slab) : Shared κ ℕ Pending Counters :=
  ⟨threads κ s, fun _ => none, ⟨s.allocCount, s.freeCount⟩⟩

/-- One step of one thread. -/
def countedStep [DecidableEq κ] (L : Layout) (σ : Shared κ ℕ Pending Counters) (m : Move κ) :
    Option (Shared κ ℕ Pending Counters) :=
  counting.stepBy true (Call.act L) σ m

/-- The move is not an alloc that succeeds although the first word of its block is no longer the one
it has read. -/
def ReadsCurrent [DecidableEq κ] (L : Layout) (σ : Shared κ ℕ Pending Counters) (m : Move κ) :
    Prop :=
  FreshBy (Call.act L) σ m

instance [DecidableEq κ] (L : Layout) (σ : Shared κ ℕ Pending Counters) (m : Move κ) :
    Decidable (ReadsCurrent L σ m) :=
  inferInstanceAs (Decidable (FreshBy (Call.act L) σ m))

/-- What `bt_slab_stats` reports. -/
structure Stats where
  used : ℕ
  total : ℕ
  allocs : ℕ
  frees : ℕ
  deriving DecidableEq

/-- `bt_slab_stats`; the products are of 64 bits. -/
def btSlabStats (L : Layout) (c : Counters) : Stats :=
  ⟨c.allocCount * L.alignedSize % 2 ^ 64, L.numBlocks * L.alignedSize % 2 ^ 64, c.allocCount,
    c.freeCount⟩

/-! ### What the counters lag behind -/

/-- What is left to add to `alloc_count`. -/
def owesAllocs : Option Pending → ℤ
  | some .allocAdd => 1
  | some .freeAdd | some .freeLoad | some .freeSub => -1
  | some .allocSub | none => 0

/-- What is left to add to `free_count`, which wraps around. -/
def owesFrees : Option Pending → ℤ
  | some .allocAdd | some .allocSub => -1
  | some .freeAdd => 1
  | some .freeLoad | some .freeSub | none => 0

theorem ncard_blocks {L : Layout} (hnodup : L.blocks.Nodup) :
    {p | p ∈ L.blocks}.ncard = L.blocks.length := by
  rw [← List.toFinset_card_of_nodup hnodup, ← Set.ncard_coe_finset, List.coe_toFinset]

section Invariant

variable [Fintype κ] [DecidableEq κ]

/-- Each counter is off by the updates that are pending. -/
structure Counted (L : Layout) (σ : Shared κ ℕ Pending Counters) : Prop where
  inv : Inv {p | p ∈ L.blocks} σ.stack
  allocs : Epilogue.Books 0 (fun c => (c.allocCount : ℤ)) owesAllocs 0 1 σ
  frees : Epilogue.Books (2 ^ 32) (fun c => (c.freeCount : ℤ)) owesFrees L.numBlocks (-1) σ
  /-- a thread that has yet to count its block has it -/
  holding : ∀ k, σ.post k = some .allocAdd → σ.stack.holds k ≠ []
  single : ∀ k, (σ.stack.pc k).pushed.length ≤ 1
  small : σ.state.allocCount < 2 ^ 32 ∧ σ.state.freeCount < 2 ^ 32

variable {L : Layout} {σ σ' : Shared κ ℕ Pending Counters}

omit [DecidableEq κ] in
/-- A thread that is about to count its free finds `alloc_count` above zero: the blocks that are
missing from the count are still held. -/
theorem Counted.allocCount_pos (h : Counted L σ) {k : κ} (hk : owesAllocs (σ.post k) = -1) :
    0 < σ.state.allocCount := by
  have hle : ∀ j, owesAllocs (σ.post j) ≤ (σ.stack.owned j).length := by
    intro j
    cases hpost : σ.post j with
    | none => exact Int.natCast_nonneg _
    | some r =>
        cases r with
        | allocAdd =>
            have hpos := List.length_pos_of_ne_nil (h.holding j hpost)
            simp only [owesAllocs, Sys.owned, List.length_append]
            omega
        | allocSub | freeAdd | freeLoad | freeSub =>
            simp only [owesAllocs]
            omega
  have hlt : ∑ j, owesAllocs (σ.post j) < ∑ j, ((σ.stack.owned j).length : ℤ) :=
    Finset.sum_lt_sum (fun j _ => hle j) ⟨k, Finset.mem_univ k, by rw [hk]; omega⟩
  have hbooks := h.allocs
  simp only [Epilogue.Books, Int.modEq_zero_iff, outstanding, Nat.cast_sum] at hbooks
  omega

omit [DecidableEq κ] in
/-- `alloc_count` stays below the number of blocks and threads. -/
theorem Counted.allocCount_lt (h : Counted L σ) (hnodup : L.blocks.Nodup) {k : κ}
    (hk : owesAllocs (σ.post k) = 1) :
    σ.state.allocCount < L.blocks.length + Fintype.card κ := by
  obtain ⟨l, -, hparts⟩ := h.inv.sound.length_add_outstanding
  rw [ncard_blocks hnodup] at hparts
  have hge : ∀ j, -1 ≤ owesAllocs (σ.post j) := by
    intro j
    cases σ.post j with
    | none => decide
    | some r => cases r <;> decide
  have hlt : ∑ _j : κ, (-1 : ℤ) < ∑ j, owesAllocs (σ.post j) :=
    Finset.sum_lt_sum (fun j _ => hge j) ⟨k, Finset.mem_univ k, by rw [hk]; decide⟩
  have hbooks := h.allocs
  simp only [Epilogue.Books, Int.modEq_zero_iff] at hbooks
  simp only [Finset.sum_const, Finset.card_univ, nsmul_eq_mul] at hlt
  omega

/-! ### One step -/

/-- The updates of `free_count` do what they owe, up to the wrapping. -/
theorem tick_frees (r : Pending) (c : Counters) :
    ((counting.tick r c).2.freeCount : ℤ) + owesFrees (counting.tick r c).1 ≡
      c.freeCount + owesFrees (some r) [ZMOD 2 ^ 32] := by
  unfold Int.ModEq
  cases r with
  | allocAdd => simp only [counting, owesFrees]
  | allocSub =>
      simp only [counting, owesFrees]
      omega
  | freeAdd =>
      simp only [counting, owesFrees]
      omega
  | freeLoad =>
      simp only [counting]
      split <;> simp only [owesFrees]
  | freeSub => simp only [counting, owesFrees]

omit [DecidableEq κ] in
/-- The updates of `alloc_count` do what they owe, in a state in which the counter does not wrap
around. -/
theorem Counted.tick_allocs (h : Counted L σ) (hnodup : L.blocks.Nodup)
    (hsmall : L.blocks.length + Fintype.card κ < 2 ^ 32) {k : κ} {r : Pending}
    (hk : σ.post k = some r) :
    ((counting.tick r σ.state).2.allocCount : ℤ) + owesAllocs (counting.tick r σ.state).1 ≡
      σ.state.allocCount + owesAllocs (some r) [ZMOD 0] := by
  rw [Int.modEq_zero_iff]
  cases r with
  | allocAdd =>
      have hlt := h.allocCount_lt hnodup (k := k) (by rw [hk]; rfl)
      have hmod : (σ.state.allocCount + 1) % 2 ^ 32 = σ.state.allocCount + 1 :=
        Nat.mod_eq_of_lt (by omega)
      simp only [counting, owesAllocs, hmod]
      omega
  | allocSub => rfl
  | freeAdd => rfl
  | freeLoad =>
      have hpos := h.allocCount_pos (k := k) (by rw [hk]; rfl)
      simp only [counting, if_pos hpos, owesAllocs]
  | freeSub =>
      have hpos := h.allocCount_pos (k := k) (by rw [hk]; rfl)
      have hlt := h.small.1
      have hmod : (2 ^ 32 - 1 + σ.state.allocCount) % 2 ^ 32 = σ.state.allocCount - 1 := by
        omega
      simp only [counting, owesAllocs, hmod]
      omega

omit [Fintype κ] [DecidableEq κ] in
/-- The deeds of the threads push single blocks. -/
theorem Move.single {m : Move κ} {k : κ} {b : Batch ℕ}
    (h : m.deed (Call.act L) = some (.act (.free k b))) : b.nodes.length = 1 := by
  cases m with
  | pass => cases h
  | call c =>
      cases c with
      | btSlabFree j ptr =>
          simp only [TreiberStack.Move.deed, Call.act] at h
          split at h
          · cases h
            rfl
          · cases h
      | btSlabAlloc | write | go => cases h

variable {m : Move κ}

/-- The batches are single blocks after the step. -/
theorem Counted.single_step {d : Deed κ ℕ} (h : Counted L σ) (hd : m.deed (Call.act L) = some d)
    (hstep : counting.step true σ d = some σ') (k : κ) : (σ'.stack.pc k).pushed.length ≤ 1 := by
  cases Epilogue.does_of_step hstep with
  | act a s hpost hs =>
      rcases pushed_of_step hs k with hsame | hnone | ⟨b, rfl, hb⟩
      · exact hsame ▸ h.single k
      · simp [hnone]
      · rw [hb, Move.single hd]
  | tick j r hpost => exact h.single k
  | pass j i p hne hidle hp => exact h.single k

/-- A thread that starts to count an alloc has its block, and one that has yet to count it keeps
it. -/
theorem Counted.holding_step {d : Deed κ ℕ} (h : Counted L σ)
    (hstep : counting.step true σ d = some σ') (k : κ) (hk : σ'.post k = some .allocAdd) :
    σ'.stack.holds k ≠ [] := by
  cases Epilogue.does_of_step hstep with
  | act a s hpost hs =>
      rcases eq_or_ne k a.thread with rfl | hne
      · simp only [Function.update_self] at hk
        cases trades_of_step hs with
        | pop j h₀ n hpc hhead => simp [Sys.take, Act.thread]
        | push j b hpc =>
            simp only [Epilogue.begun, hpc, if_true, counting] at hk
            cases hk
        | none hcompletes howned =>
            rw [counting.begun_eq_none hcompletes] at hk
            cases hk
      · simp only [Function.update_of_ne hne] at hk
        change s.holds k ≠ []
        rw [holds_of_step hs hne]
        exact h.holding k hk
  | tick j r hpost =>
      rcases eq_or_ne k j with rfl | hne
      · simp only [Function.update_self] at hk
        cases r with
        | freeLoad =>
            simp only [counting] at hk
            split at hk <;> cases hk
        | allocAdd | allocSub | freeAdd | freeSub => cases hk
      · simp only [Function.update_of_ne hne] at hk
        exact h.holding k hk
  | pass j i p hne hidle hp =>
      rcases eq_or_ne k i with rfl | hki
      · simp
      · rcases eq_or_ne k j with rfl | hkj
        · -- a thread that passes a block on has nothing left to count
          simp only [Epilogue.step, Option.ite_none_right_eq_some] at hstep
          change σ.post k = some .allocAdd at hk
          rw [hstep.1.2.1] at hk
          cases hk
        · change (σ.stack.pass j i p).holds k ≠ []
          rw [pass_holds_of_ne hkj hki]
          exact h.holding k hk

omit [Fintype κ] in
theorem small_step {d : Deed κ ℕ}
    (hsmall : σ.state.allocCount < 2 ^ 32 ∧ σ.state.freeCount < 2 ^ 32)
    (hstep : counting.step true σ d = some σ') :
    σ'.state.allocCount < 2 ^ 32 ∧ σ'.state.freeCount < 2 ^ 32 := by
  cases Epilogue.does_of_step hstep with
  | act a s hpost hs => exact hsmall
  | tick j r hpost =>
      have hmod (n : ℕ) : n % 2 ^ 32 < 2 ^ 32 := Nat.mod_lt _ (Nat.two_pow_pos 32)
      cases r with
      | allocAdd => exact ⟨hmod _, hsmall.2⟩
      | allocSub => exact ⟨hsmall.1, hmod _⟩
      | freeAdd => exact ⟨hsmall.1, hmod _⟩
      | freeLoad => exact hsmall
      | freeSub => exact ⟨hmod _, hsmall.2⟩
  | pass j i p hne hidle hp => exact hsmall

/-- **One step keeps the counters right.** -/
theorem Counted.step (h : Counted L σ) (hnodup : L.blocks.Nodup)
    (hsmall : L.blocks.length + Fintype.card κ < 2 ^ 32) (hcurrent : ReadsCurrent L σ m)
    (hstep : countedStep L σ m = some σ') : Counted L σ' := by
  rcases Epilogue.deed_of_stepBy hstep with ⟨-, rfl⟩ | ⟨d, hd, hdeed⟩
  · exact h
  · have hone : ∀ k b w, σ.stack.pc k = .pushSwap b w → b.nodes.length = 1 := by
      intro k b w hpc
      have hle := h.single k
      rw [hpc] at hle
      exact le_antisymm hle (Nat.succ_pos _)
    constructor
    case inv => exact Epilogue.inv_step h.inv (hcurrent d hd) hdeed
    case allocs =>
      refine Epilogue.books_step h.allocs hdeed rfl rfl (fun k b w hpc => ?_)
        fun k r hk => h.tick_allocs hnodup hsmall hk
      rw [hone k b w hpc]
      rfl
    case frees =>
      refine Epilogue.books_step h.frees hdeed rfl rfl (fun k b w hpc => ?_)
        fun k r _ => tick_frees r σ.state
      rw [hone k b w hpc]
      rfl
    case holding => exact h.holding_step hdeed
    case single => exact h.single_step hd hdeed
    case small => exact small_step h.small hdeed

/-! ### Whole runs -/

theorem btSlabInit_room {mem : Region} {words : ℕ → Option ℕ} {blockSize : ℕ} {s : Slab}
    (hinit : btSlabInit mem words blockSize = some s) :
    0 < s.alignedSize ∧ s.numBlocks * s.alignedSize ≤ mem.size := by
  obtain ⟨L, -, -, haligned, hnum, -, rfl⟩ := btSlabInit_spec hinit
  rw [linkBlocks_toLayout]
  change 0 < L.alignedSize ∧ L.numBlocks * L.alignedSize ≤ mem.size
  rw [haligned, hnum]
  exact ⟨alignedBlock_pos blockSize, Nat.div_mul_le_self _ _⟩

omit [DecidableEq κ] in
/-- After `bt_slab_init` the counters count the blocks. -/
theorem counted_init {mem : Region} {words : ℕ → Option ℕ} {blockSize : ℕ} {s : Slab}
    (hinit : btSlabInit mem words blockSize = some s) (hn : s.numBlocks < 2 ^ 32) :
    Counted s.toLayout (counted κ s) := by
  have htidy := btSlabInit_tidy hinit hn
  have halloc : s.allocCount = 0 := htidy.allocCount
  have hfree : s.freeCount = s.numBlocks := by
    rw [htidy.freeCount, List.length_reverse]
    exact length_cells
  have hout : outstanding (threads κ s) = 0 := by
    simp [outstanding, threads, Sys.owned, Pc.pushed]
  constructor
  case inv => exact threads_inv hinit
  case allocs => simp [Epilogue.Books, counted, owesAllocs, hout, halloc]
  case frees => simp [Epilogue.Books, counted, owesFrees, hout, hfree]
  case holding => exact fun k hk => by cases hk
  case single => exact fun k => Nat.zero_le 1
  case small => exact ⟨by simp [counted, halloc], by simpa [counted, hfree] using hn⟩

omit [DecidableEq κ] in
/-- When no call is in progress, nothing is left to count. -/
theorem Counted.quiet (h : Counted L σ) (hquiet : Quiet σ) (hnodup : L.blocks.Nodup)
    (hsmall : L.numBlocks < 2 ^ 32) :
    ∃ l, Chain σ.stack.next σ.stack.head l ∧
      σ.state.allocCount = ∑ k, (σ.stack.holds k).length ∧ σ.state.freeCount = l.length ∧
      σ.state.allocCount + l.length = L.numBlocks := by
  obtain ⟨l, hchain, hparts⟩ := h.inv.sound.length_add_outstanding
  rw [ncard_blocks hnodup] at hparts
  have hblocks : L.blocks.length = L.numBlocks := length_cells
  have hout : outstanding σ.stack = ∑ k, (σ.stack.holds k).length := by
    simp [outstanding, Sys.owned, hquiet.idle, Pc.pushed]
  have hallocs := h.allocs
  have hfrees := h.frees
  simp only [Epilogue.Books, hquiet.done, owesAllocs, owesFrees, Finset.sum_const_zero, add_zero,
    Int.modEq_zero_iff] at hallocs hfrees
  have hlt := h.small.2
  unfold Int.ModEq at hfrees
  exact ⟨l, hchain, by omega, by omega, by omega⟩

end Invariant

/-- **The statistics are exact whenever no call is in progress**: for any number of threads and
every interleaving of their steps, as long as no alloc swaps in a word that is out of date.  And
`bt_slab_free` never finds `alloc_count` at zero, so that it never skips its decrement.  The number
of blocks and threads together is below `2 ^ 32`: so far `alloc_count`, which has 32 bits, may run
ahead of the blocks in use. -/
theorem stats_exact_when_quiet [Fintype κ] [DecidableEq κ] (mem : Region) (words : ℕ → Option ℕ)
    {blockSize : ℕ} {s : Slab} (hinit : btSlabInit mem words blockSize = some s)
    (hsmall : s.numBlocks + Fintype.card κ < 2 ^ 32) (moves : List (Move κ))
    (hcurrent : Along (countedStep s.toLayout) (ReadsCurrent s.toLayout) (counted κ s) moves)
    {σ : Shared κ ℕ Pending Counters}
    (hrun : run (countedStep s.toLayout) (counted κ s) moves = some σ) :
    (∀ k, σ.post k = some .freeLoad → 0 < σ.state.allocCount) ∧
    (Quiet σ → ∃ l, Chain σ.stack.next σ.stack.head l ∧
      btSlabStats s.toLayout σ.state =
        ⟨(∑ k, (σ.stack.holds k).length) * s.alignedSize, s.numBlocks * s.alignedSize,
          ∑ k, (σ.stack.holds k).length, l.length⟩) := by
  obtain ⟨hpos, hroom⟩ := btSlabInit_room hinit
  have hnodup : s.blocks.Nodup := cells_nodup hpos
  have hblocks : s.blocks.length = s.numBlocks := length_cells
  have hinv : Counted s.toLayout σ :=
    run_induction (I := Counted s.toLayout)
      (fun σ m σ' h hm hstep => h.step hnodup (by omega) hm hstep)
      (counted_init hinit (by omega)) hcurrent hrun
  refine ⟨fun k hk => hinv.allocCount_pos (k := k) (by rw [hk]; rfl), fun hquiet => ?_⟩
  obtain ⟨l, hchain, hallocs, hfrees, hparts⟩ := hinv.quiet hquiet hnodup (by omega)
  have htop := mem.top
  have hused : σ.state.allocCount * s.alignedSize ≤ s.numBlocks * s.alignedSize :=
    Nat.mul_le_mul_right _ (by omega)
  refine ⟨l, hchain, ?_⟩
  rw [btSlabStats, Nat.mod_eq_of_lt (by omega), Nat.mod_eq_of_lt (by omega), hfrees, hallocs]

/-- The next `n` steps of the call of the thread. -/
def goes (k : κ) (n : ℕ) : List (Move κ) := List.replicate n (.call (.go k))

/-- A thread allocates two blocks and passes one of them on to another thread, which frees it. -/
def freedByAnother : List (Move Bool) :=
  .call (.btSlabAlloc true) :: goes true 5 ++ .call (.btSlabAlloc true) :: goes true 5 ++
    .pass true false 4224 :: .call (.btSlabFree false 4224) :: goes false 6

/-- Three blocks of 64 bytes. -/
def threeSlab : Slab := (btSlabInit threeBlocks (fun _ => none) 64).get (by decide +kernel)

/-- The state after `SlabAllocator.freedByAnother`. -/
def oneInUse : Shared Bool ℕ Pending Counters :=
  (run (countedStep threeSlab.toLayout) (counted Bool threeSlab) freedByAnother).get
    (by decide +kernel)

theorem run_freedByAnother :
    run (countedStep threeSlab.toLayout) (counted Bool threeSlab) freedByAnother =
      some oneInUse := (Option.some_get _).symm

/-- The hypotheses of `SlabAllocator.stats_exact_when_quiet` hold of three blocks of 64 bytes, of
which one is in use after `SlabAllocator.freedByAnother`. -/
theorem stats_exact_freed_by_another :
    Quiet oneInUse ∧ oneInUse.stack.holds true = [4160] ∧
      ∃ l, btSlabStats threeSlab.toLayout oneInUse.state =
        ⟨(∑ k, (oneInUse.stack.holds k).length) * threeSlab.alignedSize,
          threeSlab.numBlocks * threeSlab.alignedSize,
          ∑ k, (oneInUse.stack.holds k).length, l⟩ := by
  have hinit : btSlabInit threeBlocks (fun _ => none) 64 = some threeSlab :=
    (Option.some_get _).symm
  have hquiet : Quiet oneInUse := ⟨by decide +kernel, by decide +kernel⟩
  obtain ⟨l, -, hstats⟩ := (stats_exact_when_quiet threeBlocks (fun _ => none) hinit
    (by decide +kernel) freedByAnother (by decide +kernel) run_freedByAnother).2 hquiet
  exact ⟨hquiet, by decide +kernel, l.length, hstats⟩

/-! ### Progress -/

/-- The move is a step of a call. -/
def Move.isStep : Move κ → Bool
  | .call (.go _) => true
  | .call (.btSlabAlloc _) | .call (.btSlabFree _ _) | .call (.write _ _ _) | .pass _ _ _ => false

/-- The move begins a call. -/
def Move.isCall : Move κ → Bool
  | .call (.btSlabAlloc _) | .call (.btSlabFree _ _) => true
  | .call (.go _) | .call (.write _ _ _) | .pass _ _ _ => false

/-- The updates that are left. -/
def Pending.left : Pending → ℕ
  | .allocAdd | .freeLoad => 2
  | .allocSub | .freeSub => 1
  | .freeAdd => 3

theorem counting_ends : counting.Ends Pending.left 3 where
  tick r c := by
    cases r with
    | freeLoad =>
        simp only [counting]
        split <;> decide
    | allocAdd | allocSub | freeAdd | freeSub => simp [counting, Pending.left]
  afterPop := by decide
  afterPush _ := le_rfl

/-- The moves are counted as the acts on the free list. -/
theorem tallies (L : Layout) :
    Tallies (Call.act L) Move.isStep Move.isCall (fun _ : Move κ => 0) where
  of_none m hd := by
    cases m with
    | pass => rfl
    | call c =>
        cases c with
        | go => cases hd
        | btSlabAlloc | btSlabFree | write => rfl
  of_some m d hd := by
    cases m with
    | pass =>
        cases hd
        exact ⟨rfl, rfl, rfl⟩
    | call c =>
        cases c with
        | btSlabAlloc | write | go =>
            cases hd
            exact ⟨rfl, rfl, rfl⟩
        | btSlabFree k ptr =>
            simp only [TreiberStack.Move.deed, Call.act] at hd
            split at hd
            · cases hd
              exact ⟨rfl, rfl, rfl⟩
            · cases hd

/-- **The slab is lock-free**: in every interleaving, `n` threads together take at most `3 * n + 3`
steps for each call that they begin, retries and counter updates included, and a thread inside of a
call can always take its next step. -/
theorem steps_bounded_by_calls [Fintype κ] [DecidableEq κ] (s : Slab) (moves : List (Move κ))
    {σ : Shared κ ℕ Pending Counters}
    (hrun : run (countedStep s.toLayout) (counted κ s) moves = some σ) :
    moves.countP Move.isStep ≤ (3 * Fintype.card κ + 3) * moves.countP Move.isCall ∧
      ∀ k, Busy σ k → ∃ σ', countedStep s.toLayout σ (.call (.go k)) = some σ' := by
  have hquiet : Quiet (counted κ s) := ⟨fun _ => rfl, fun _ => rfl⟩
  have hsteps := (tallies s.toLayout).steps_le counting_ends hquiet hrun
  rw [List.map_const', List.sum_replicate, nsmul_zero, Nat.add_zero] at hsteps
  exact ⟨hsteps, fun k hk => counting.exists_stepBy true rfl hk⟩

/-- The hypothesis of `SlabAllocator.steps_bounded_by_calls` holds of the run
`SlabAllocator.freedByAnother`: the three calls take 16 steps, and may take 27. -/
theorem steps_bounded_freed_by_another :
    freedByAnother.countP Move.isStep = 16 ∧ freedByAnother.countP Move.isCall = 3 ∧
      freedByAnother.countP Move.isStep ≤
        (3 * Fintype.card Bool + 3) * freedByAnother.countP Move.isCall :=
  ⟨by decide, by decide, (steps_bounded_by_calls threeSlab freedByAnother run_freedByAnother).1⟩

end SlabAllocator
