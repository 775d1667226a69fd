/-
**The slab allocator template.**

The C++ class `SlabAllocator<BlockSize, N>` keeps one counter, `free_count_`, for two purposes: it
is what `available()` returns, and, where the free list is empty, it is the number of blocks in
front of those that have been bumped off the pool.  The constructor stores `N` in it and then links
all blocks with `deallocate`, which adds one for each of them.  So the counter starts at `2 N`, and
is `N` too large for both purposes from then on.  When all blocks are held, the free list is empty
and the counter is `N`: the next call hands out the last block of the pool, which is held already.

So no run is as one expects.  As long as nobody asks for a block when all of them are held, the free
list serves every call, and only `available()` is wrong, by `N`.

Main definitions:

* `SlabTemplate.Template` — an instance of the class, with its pool;
* `SlabTemplate.Slab`, `SlabTemplate.allocate`, `SlabTemplate.deallocate`, `SlabTemplate.reset` —
  the class;
* `SlabTemplate.Client`, `SlabTemplate.step` — the object in the hands of one thread;
* `SlabTemplate.NullIff`, `SlabTemplate.Spare` — `allocate` refuses when all blocks are held, and
  the condition.

Main results:

* `SlabTemplate.start_kept` — what the constructor leaves;
* `SlabTemplate.blocks_once_iff` — **each block is handed out once exactly as long as no block is
  asked for when all are held**; `available()` is then `2 N` less the number of blocks held;
* `SlabTemplate.never_once_and_counted` — **no run has distinct blocks, a `nullptr` exactly when all
  are held, and the right number of free blocks**;
* `SlabTemplate.only_block_handed_out_twice` — the smallest allocator.
-/

import AspiraBroker.AlignedCells
import AspiraBroker.LinkedChain
import AspiraBroker.TransitionRuns

set_option relaxedAutoImplicit false
set_option autoImplicit false

namespace SlabTemplate

open AlignedCells LinkedChain Transition

/-! ### The class -/

/-- An object of an instance of the class: `pool_` is an array of `AlignedBlockSize * N` bytes. -/
structure Template where
  blockSize : ℕ
  n : ℕ
  pool : Region
  eight_le : 8 ≤ blockSize
  one_le : 1 ≤ n
  /-- `AlignedBlockSize` is computed without wrapping -/
  no_wrap : blockSize + 63 < 2 ^ 64
  size_eq : pool.size = n * cacheLines blockSize

/-- `AlignedBlockSize`. -/
def Template.alignedBlockSize (T : Template) : ℕ := cacheLines T.blockSize

/-- `pool_ + i * AlignedBlockSize`. -/
def Template.block (T : Template) (i : ℕ) : ℕ := cell T.pool.base T.alignedBlockSize i

/-- All the blocks. -/
def Template.blocks (T : Template) : List ℕ := cells T.pool.base T.alignedBlockSize T.n

/-- The members of the object, with the first word of every block. -/
structure Slab where
  freeCount : UInt64
  freeList : Option ℕ
  words : ℕ → Option ℕ

/-- `allocate`: the object after the call, and the result. -/
def allocate (T : Template) (s : Slab) : Slab × Option ℕ :=
  match s.freeList with
  | some ptr => ({ s with freeList := s.words ptr, freeCount := s.freeCount - 1 }, some ptr)
  | none =>
      -- bump allocate
      let idx := s.freeCount
      let s := { s with freeCount := s.freeCount - 1 }
      if idx = 0 ∨ idx.toNat > T.n then (s, none) else (s, some (T.block (idx.toNat - 1)))

/-- `deallocate`. -/
def deallocate (s : Slab) (ptr : Option ℕ) : Slab :=
  match ptr with
  | none => s
  | some p =>
      { s with
        words := Function.update s.words p s.freeList
        freeList := some p
        freeCount := s.freeCount + 1 }

/-- The first `i` turns of the loop of `reset`. -/
def linkBlocks (T : Template) (s : Slab) : ℕ → Slab
  | 0 => s
  | i + 1 => deallocate (linkBlocks T s i) (some (T.block i))

/-- `reset`, which is all that the constructor does. -/
def reset (T : Template) (s : Slab) : Slab :=
  linkBlocks T { s with freeCount := UInt64.ofNat T.n, freeList := none } T.n

/-- `available`. -/
def available (s : Slab) : ℕ := s.freeCount.toNat

/-! ### The client -/

/-- The object, and the blocks that its client holds. -/
structure Client where
  slab : Slab
  held : List ℕ

/-- What the client does. -/
inductive Op
  | allocate
  /-- gives back a block it holds -/
  | deallocate (p : ℕ)
  /-- overwrites the first word of a block it holds -/
  | write (p : ℕ) (w : Option ℕ)

/-- One operation of the client. -/
def step (T : Template) (c : Client) : Op → Option Client
  | .allocate =>
      let r := allocate T c.slab
      some ⟨r.1, r.2.toList ++ c.held⟩
  | .deallocate p =>
      if p ∈ c.held then some ⟨deallocate c.slab (some p), c.held.erase p⟩ else none
  | .write p w =>
      if p ∈ c.held then some { c with slab.words := Function.update c.slab.words p w } else none

/-- The client of an object that was constructed in memory that holds `words`. -/
def start (T : Template) (words : ℕ → Option ℕ) : Client := ⟨reset T ⟨0, none, words⟩, []⟩

/-- The blocks that are held are distinct. -/
def Distinct (c : Client) : Prop := c.held.Nodup

/-- A call of `allocate` returns `nullptr` exactly if all blocks are held. -/
def NullIff (T : Template) (c : Client) : Op → Prop
  | .allocate => (allocate T c.slab).2 = none ↔ c.held.length = T.n
  | _ => True

/-- A block is asked for only if not all are held. -/
def Spare (T : Template) (c : Client) : Op → Prop
  | .allocate => c.held.length < T.n
  | _ => True

/-! ### The invariant -/

/-- The held blocks and the free list are the blocks, and the counter is `N` more than the length of
the free list. -/
def Kept (T : Template) (c : Client) : Prop :=
  ∃ l, Shared c.slab.words c.slab.freeList c.held l T.blocks ∧
    c.slab.freeCount.toNat = T.n + l.length

section Template

variable (T : Template)

theorem alignedBlockSize_pos : 0 < T.alignedBlockSize :=
  (Nat.lt_of_lt_of_le (by decide) T.eight_le).trans_le (le_cacheLines T.no_wrap)

theorem blocks_nodup : T.blocks.Nodup := cells_nodup (alignedBlockSize_pos T)

theorem length_blocks : T.blocks.length = T.n := length_cells

/-- The counter has room for twice the number of blocks. -/
theorem two_mul_lt : 2 * T.n < 2 ^ 64 := by
  have htop := T.pool.top
  have hsize : T.n * 8 ≤ T.pool.size := by
    rw [T.size_eq]
    exact Nat.mul_le_mul_left _ (T.eight_le.trans (le_cacheLines T.no_wrap))
  omega

/-- The loop links the blocks, the last one first. -/
theorem linkBlocks_chain {s : Slab} (hs : s.freeList = none) (i : ℕ) :
    Chain (linkBlocks T s i).words (linkBlocks T s i).freeList
      (cells T.pool.base T.alignedBlockSize i).reverse :=
  Chain.of_pushes (fun i => (linkBlocks T s i).words) (fun i => (linkBlocks T s i).freeList)
    (cell_injective (alignedBlockSize_pos T)) hs (fun _ => rfl) (fun _ => rfl) i

/-- It adds one for each of them. -/
theorem linkBlocks_freeCount (s : Slab) (i : ℕ) :
    (linkBlocks T s i).freeCount = s.freeCount + UInt64.ofNat i := by
  induction i with
  | zero => exact (UInt64.add_zero _).symm
  | succ i ih =>
      change (linkBlocks T s i).freeCount + 1 = _
      rw [ih, UInt64.ofNat_add, UInt64.add_assoc]
      rfl

/-- **What the constructor leaves**: all blocks are linked, and counted twice. -/
theorem start_kept (words : ℕ → Option ℕ) : Kept T (start T words) := by
  have hn := two_mul_lt T
  refine ⟨T.blocks.reverse, ⟨linkBlocks_chain T rfl T.n, ?_, blocks_nodup T⟩, ?_⟩
  · exact List.reverse_perm _
  · rw [List.length_reverse, length_blocks]
    change (linkBlocks T _ T.n).freeCount.toNat = _
    rw [linkBlocks_freeCount, UInt64.toNat_add, UInt64.toNat_ofNat']
    omega

variable {T} {c c' : Client}

/-- Where not all blocks are held, `allocate` takes the first one of the free list. -/
theorem Kept.allocate_of_lt (h : Kept T c) (hlt : c.held.length < T.n) :
    ∃ p s, allocate T c.slab = (s, some p) ∧ Kept T ⟨s, p :: c.held⟩ := by
  obtain ⟨l, hshared, hcount⟩ := h
  have hlen := hshared.length_eq
  rw [length_blocks] at hlen
  cases hlist : c.slab.freeList with
  | none =>
      -- then there is no free block, and all are held
      rw [hlist] at hshared
      obtain rfl := hshared.chain.eq_nil
      rw [List.length_nil] at hlen
      omega
  | some p =>
      rw [hlist] at hshared
      obtain ⟨t, rfl, hpop⟩ := hshared.pop
      rw [List.length_cons] at hcount
      refine ⟨p, _, by rw [allocate, hlist], t, hpop, ?_⟩
      have hone : (1 : UInt64) ≤ c.slab.freeCount := by
        rw [UInt64.le_iff_toNat_le, hcount]
        exact Nat.le_add_left 1 _
      change (c.slab.freeCount - 1).toNat = _
      rw [UInt64.toNat_sub_of_le _ _ hone, hcount]
      rfl

/-- Where all blocks are held, it hands out the last one of the pool. -/
theorem Kept.allocate_of_full (h : Kept T c) (hfull : c.held.length = T.n) :
    (allocate T c.slab).2 = some (T.block (T.n - 1)) := by
  obtain ⟨l, hshared, hcount⟩ := h
  have hlen := hshared.length_eq
  have hpos := T.one_le
  rw [length_blocks] at hlen
  obtain rfl : l = [] := List.eq_nil_of_length_eq_zero (by omega)
  have hlist : c.slab.freeList = none := hshared.chain
  rw [List.length_nil, Nat.add_zero] at hcount
  have hidx : ¬ (c.slab.freeCount = 0 ∨ c.slab.freeCount.toNat > T.n) := by
    rintro (hzero | hgt)
    · rw [hzero] at hcount
      change 0 = T.n at hcount
      omega
    · omega
  simp only [allocate, hlist, if_neg hidx]
  rw [hcount]

/-- One operation keeps the invariant, if it does not ask for a block when all are held. -/
theorem step_kept (h : Kept T c) {op : Op} (hspare : Spare T c op) (hstep : step T c op = some c') :
    Kept T c' := by
  cases op with
  | allocate =>
      obtain ⟨p, s, halloc, h'⟩ := h.allocate_of_lt hspare
      obtain rfl := Option.some.inj hstep
      simp only [halloc]
      exact h'
  | deallocate p =>
      simp only [step, Option.ite_none_right_eq_some, Option.some.injEq] at hstep
      obtain ⟨hp, rfl⟩ := hstep
      obtain ⟨l, hshared, hcount⟩ := h
      have hn := two_mul_lt T
      have hlen := hshared.length_eq
      have hpos := List.length_pos_of_mem hp
      rw [length_blocks] at hlen
      refine ⟨p :: l, hshared.push hp, ?_⟩
      change (c.slab.freeCount + 1).toNat = _
      rw [UInt64.toNat_add, hcount, List.length_cons]
      change (T.n + l.length + 1) % 2 ^ 64 = _
      omega
  | write p w =>
      simp only [step, Option.ite_none_right_eq_some, Option.some.injEq] at hstep
      obtain ⟨hp, rfl⟩ := hstep
      obtain ⟨l, hshared, hcount⟩ := h
      exact ⟨l, hshared.write hp w, hcount⟩

/-- What the invariant says about `available()`. -/
theorem Kept.available_add (h : Kept T c) : available c.slab + c.held.length = 2 * T.n := by
  obtain ⟨l, hshared, hcount⟩ := h
  have hlen := hshared.length_eq
  rw [length_blocks] at hlen
  rw [available, hcount]
  omega

/-- `allocate` does what is expected of it exactly if not all blocks are held. -/
theorem Kept.nullIff_iff (h : Kept T c) (op : Op) : NullIff T c op ↔ Spare T c op := by
  cases op with
  | allocate =>
      constructor
      · intro hnull
        obtain ⟨l, hshared, -⟩ := id h
        have hlen := hshared.length_eq
        rw [length_blocks] at hlen
        by_contra hge
        have hfull : c.held.length = T.n := by
          simp only [Spare] at hge
          omega
        have hnone := hnull.2 hfull
        rw [h.allocate_of_full hfull] at hnone
        cases hnone
      · intro hlt
        obtain ⟨p, s, halloc, -⟩ := h.allocate_of_lt hlt
        have hlt' : c.held.length < T.n := hlt
        simp only [NullIff, halloc, reduceCtorEq, false_iff]
        omega
  | deallocate p => exact Iff.rfl
  | write p w => exact Iff.rfl

end Template

/-- **Each block is handed out once exactly as long as no block is asked for when all are held**:
then the held blocks are distinct and `allocate` returns `nullptr` if and only if all are held.
`available()` is `2 N` less the number of blocks held in every state of such a run. -/
theorem blocks_once_iff (T : Template) (words : ℕ → Option ℕ) (ops : List Op) :
    ((Throughout (step T) Distinct (start T words) ops ∧
        Along (step T) (NullIff T) (start T words) ops) ↔
      Along (step T) (Spare T) (start T words) ops) ∧
    (Along (step T) (Spare T) (start T words) ops →
      Throughout (step T) (fun c => available c.slab + c.held.length = 2 * T.n)
        (start T words) ops) := by
  have hkeep : ∀ c op c', Kept T c → Spare T c op → step T c op = some c' → Kept T c' :=
    fun c op c' h hspare hstep => step_kept h hspare hstep
  have hstart := start_kept T words
  have hnull : Along (step T) (NullIff T) (start T words) ops ↔
      Along (step T) (Spare T) (start T words) ops :=
    along_iff_of_invariant hkeep (fun c op h => h.nullIff_iff op) hstart
  refine ⟨⟨fun h => hnull.1 h.2, fun h => ⟨?_, hnull.2 h⟩⟩, fun h => ?_⟩
  · refine throughout_of_invariant hkeep (fun c hc => ?_) hstart h
    obtain ⟨l, hshared, -⟩ := hc
    exact hshared.held_nodup
  · exact throughout_of_invariant hkeep (fun c hc => hc.available_add) hstart h

/-- **The object never does all that is expected of it**: there is no object of the class and no run
with it in which the held blocks are distinct, `allocate` returns `nullptr` if and only if all are
held, and `available()` is `N` less the number of blocks held. -/
theorem never_once_and_counted (T : Template) (words : ℕ → Option ℕ) (ops : List Op) :
    ¬ (Throughout (step T) Distinct (start T words) ops ∧
      Along (step T) (NullIff T) (start T words) ops ∧
      Throughout (step T) (fun c => available c.slab + c.held.length = T.n)
        (start T words) ops) := by
  rintro ⟨-, -, hcounted⟩
  -- the counter is wrong before the first call
  have hexpected := throughout_head hcounted
  have hcounter := (start_kept T words).available_add
  have hpos := T.one_le
  omega

/-- `SlabAllocator<8, 1>`. -/
def smallest : Template where
  blockSize := 8
  n := 1
  pool := ⟨12288, 64, by decide, by decide⟩
  eight_le := by decide
  one_le := by decide
  no_wrap := by decide
  size_eq := by decide

/-- The smallest allocator claims to have two blocks, and hands out its only block twice. -/
theorem only_block_handed_out_twice :
    available (start smallest fun _ => none).slab = 2 ∧
      (∃ c, run (step smallest) (start smallest fun _ => none) [.allocate, .allocate] = some c ∧
        c.held = [12288, 12288]) ∧
      ¬ Throughout (step smallest) Distinct (start smallest fun _ => none)
        [.allocate, .allocate] := by
  refine ⟨by decide, ⟨_, rfl, by decide⟩, fun h => ?_⟩
  have hlast : [12288, 12288].Nodup := (h.2 _ rfl).2 _ rfl
  exact absurd hlast (by decide)

end SlabTemplate
