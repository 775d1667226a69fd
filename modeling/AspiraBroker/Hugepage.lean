/-
**The hugepage arena, and the two bump allocators.**

`bt_hugepage_init` tries up to three mappings and stores the result of each into `base`.  The
address of a failed mapping is not `NULL` but `MAP_FAILED`, the highest address of all.  So when
the last attempt fails, the function returns -1 and leaves an arena that the other functions take
for a good one: they only test `base` for `NULL`.  An alloc then hands out the address
`MAP_FAILED` to any request that is not larger than the arena was to be; `bt_hugepage_destroy`
passes it to `munmap`, which refuses an address in the middle of a page, and clears the arena.

The second part is about `bt_hugepage_alloc` and its sibling `bt_mempool_alloc`: bump allocators
with blocks of 2 MB and of 64 bytes.

Main definitions:

* `Hugepage.Arena`, `Hugepage.btHugepageInit`, `Hugepage.btHugepageAlloc`,
  `Hugepage.btHugepageReset`, `Hugepage.btHugepageDestroy` — the arena;
* `Hugepage.step`, `Hugepage.Harmless` — later calls, and what is expected of them;
* `Hugepage.MempoolHonours`, `Hugepage.HugepageHonours` — a request gets what it asked for.

Main results:

* `Hugepage.failed_init_harmless_iff` — **an arena whose initialisation failed is harmless exactly
  if every request before it is destroyed is larger than the arena was to be**;
* `Hugepage.bump_honours_iff` — **both allocators hand out what was asked for exactly if nothing
  wraps around**, or the wrapped sum is refused;
* `Hugepage.map_failed_handed_out`, `Hugepage.largest_request_gets_nothing` — what goes wrong.
-/

import AspiraBroker.BumpPointer
import AspiraBroker.MemoryPool
import AspiraBroker.TransitionRuns

set_option relaxedAutoImplicit false
set_option autoImplicit false

namespace Hugepage

open AlignedCells BumpPointer Transition

/-! ### The arena -/

/-- A `bt_hugepage_t`; the base 0 is `NULL`. -/
structure Arena where
  base : UInt64
  totalSize : UInt64
  offset : UInt64
  use1gb : Int32
  deriving DecidableEq

/-- The arena after `memset`. -/
def Arena.cleared : Arena := ⟨0, 0, 0, 0⟩

/-- The size, rounded up to 2 MB. -/
def align2mb (size : UInt64) : UInt64 := (size + 2 * 1024 * 1024 - 1) &&& ~~~(2 * 1024 * 1024 - 1)

/-- `MAP_FAILED`. -/
def mapFailed : UInt64 := ~~~0

/-- The pages that a mapping is asked for with. -/
inductive Pages
  | oneGb
  | twoMb
  | regular

/-- `bt_hugepage_init`, with what `mmap` returns for each kind of pages: the arena after the call,
and the result. -/
def btHugepageInit (totalSize : UInt64) (use1gb : Int32) (mmap : Pages → UInt64) :
    Arena × Int32 :=
  let hp := { Arena.cleared with totalSize := align2mb totalSize, use1gb := use1gb }
  if use1gb ≠ 0 ∧ mmap .oneGb ≠ mapFailed then ({ hp with base := mmap .oneGb }, 0)
  else if mmap .twoMb ≠ mapFailed then ({ hp with base := mmap .twoMb }, 0)
  else if mmap .regular = mapFailed then ({ hp with base := mmap .regular }, -1)
  else ({ hp with base := mmap .regular }, 0)

/-- `bt_hugepage_alloc`: the arena after the call, and the result. -/
def btHugepageAlloc (hp : Arena) (size : UInt64) : Arena × Option UInt64 :=
  if hp.base = 0 then (hp, none)
  else
    let aligned := align2mb size
    if hp.totalSize < hp.offset + aligned then (hp, none)
    else ({ hp with offset := hp.offset + aligned }, some (hp.base + hp.offset))

/-- `bt_hugepage_reset`. -/
def btHugepageReset (hp : Arena) : Arena := { hp with offset := 0 }

/-- The range that `munmap` unmaps: it refuses an address that is not a multiple of the page size,
and a range of no bytes. -/
def munmap (addr length : UInt64) : Option (UInt64 × UInt64) :=
  if addr % 4096 = 0 ∧ length ≠ 0 then some (addr, length) else none

/-- `bt_hugepage_destroy`: the arena after the call, and what was unmapped. -/
def btHugepageDestroy (hp : Arena) : Arena × Option (UInt64 × UInt64) :=
  if hp.base = 0 then (hp, none) else (Arena.cleared, munmap hp.base hp.totalSize)

/-- The rounding is the one of the library. -/
theorem toNat_align2mb (size : UInt64) : (align2mb size).toNat = alignUp 21 size.toNat := by
  have hmask : (~~~(2 * 1024 * 1024 - 1 : UInt64)).toNat = 2 ^ 64 - 2 ^ 21 := by decide
  have hadd : (size + 2 * 1024 * 1024 - 1).toNat = (size.toNat + (2 ^ 21 - 1)) % 2 ^ 64 := by
    rw [show size + 2 * 1024 * 1024 - 1 = size + 2097151 by
      rw [UInt64.sub_eq_add_neg, UInt64.add_assoc]
      rfl, UInt64.toNat_add]
    rfl
  rw [align2mb, UInt64.toNat_and, hmask, hadd, alignUp]

/-! ### After a failed initialisation -/

/-- The later calls. -/
inductive Op
  | alloc (size : UInt64)
  | reset
  | destroy
  deriving DecidableEq

/-- One call. -/
def step (hp : Arena) : Op → Option Arena
  | .alloc size => some (btHugepageAlloc hp size).1
  | .reset => some (btHugepageReset hp)
  | .destroy => some (btHugepageDestroy hp).1

/-- What is expected of a call on an arena that could not be initialised: an alloc returns `NULL`,
and nothing is unmapped. -/
def Harmless (hp : Arena) : Op → Prop
  | .alloc size => (btHugepageAlloc hp size).2 = none
  | .reset => True
  | .destroy => (btHugepageDestroy hp).2 = none

/-- An arena without memory is harmless. -/
theorem harmless_of_base_zero {hp : Arena} (hbase : hp.base = 0) (ops : List Op) :
    Along step Harmless hp ops := by
  refine along_of_invariant (G := fun _ _ => True) (I := fun hp => hp.base = 0) ?_ ?_ hbase
    (along_of_forall (fun _ _ => trivial) _ _)
  · rintro hp op hp' hzero - hstep
    cases op with
    | alloc size =>
        obtain rfl := Option.some.inj hstep
        rw [btHugepageAlloc, if_pos hzero]
        exact hzero
    | reset =>
        obtain rfl := Option.some.inj hstep
        exact hzero
    | destroy =>
        obtain rfl := Option.some.inj hstep
        rw [btHugepageDestroy, if_pos hzero]
        exact hzero
  · rintro hp op hzero -
    cases op with
    | alloc size => exact congrArg Prod.snd (if_pos hzero)
    | reset => trivial
    | destroy => exact congrArg Prod.snd (if_pos hzero)

/-- The requests before the arena is destroyed are larger than it. -/
def TooLarge (totalSize : UInt64) (ops : List Op) : Prop :=
  ∀ size, .alloc size ∈ ops.takeWhile (· ≠ .destroy) →
    alignUp 21 totalSize.toNat < alignUp 21 size.toNat

section Failed

variable {hp : Arena} (hbase : hp.base = mapFailed)

include hbase

/-- What an alloc does with a failed arena that nothing was allocated from. -/
theorem alloc_failed (hoffset : hp.offset = 0) (size : UInt64) : btHugepageAlloc hp size =
    if hp.totalSize < align2mb size then (hp, none)
    else ({ hp with offset := align2mb size }, some mapFailed) := by
  have hne : ¬ mapFailed = 0 := by decide
  simp only [btHugepageAlloc, hbase, hoffset, if_neg hne, UInt64.zero_add, UInt64.add_zero]

/-- `munmap` refuses `MAP_FAILED`. -/
theorem destroy_failed : btHugepageDestroy hp = (Arena.cleared, none) := by
  have hne : ¬ mapFailed = 0 := by decide
  have hpage : ¬ (mapFailed % 4096 = 0 ∧ hp.totalSize ≠ 0) := fun h => absurd h.1 (by decide)
  rw [btHugepageDestroy, hbase, if_neg hne, munmap, if_neg hpage]

end Failed

theorem tooLarge_alloc_iff {totalSize size : UInt64} {ops : List Op} :
    TooLarge totalSize (.alloc size :: ops) ↔
      alignUp 21 totalSize.toNat < alignUp 21 size.toNat ∧ TooLarge totalSize ops := by
  simp [TooLarge]

theorem tooLarge_reset_iff {totalSize : UInt64} {ops : List Op} :
    TooLarge totalSize (.reset :: ops) ↔ TooLarge totalSize ops := by
  simp [TooLarge]

theorem tooLarge_destroy {totalSize : UInt64} {ops : List Op} :
    TooLarge totalSize (.destroy :: ops) := by
  simp [TooLarge]

/-- A failed arena stays as it is as long as every request is too large for it. -/
theorem harmless_iff_tooLarge {hp : Arena} {totalSize : UInt64} (hbase : hp.base = mapFailed)
    (hoffset : hp.offset = 0) (htotal : hp.totalSize = align2mb totalSize) (ops : List Op) :
    Along step Harmless hp ops ↔ TooLarge totalSize ops := by
  induction ops with
  | nil => simp [TooLarge]
  | cons op ops ih =>
      cases op with
      | alloc size =>
          have halloc := alloc_failed hbase hoffset size
          have hlt : hp.totalSize < align2mb size ↔
              alignUp 21 totalSize.toNat < alignUp 21 size.toNat := by
            rw [htotal, UInt64.lt_iff_toNat_lt, toNat_align2mb, toNat_align2mb]
          rw [tooLarge_alloc_iff, along_cons_iff, ← hlt, ← ih]
          by_cases hbig : hp.totalSize < align2mb size
          · rw [if_pos hbig] at halloc
            simp only [Harmless, step, halloc, Option.some.injEq, forall_eq', hbig]
          · rw [if_neg hbig] at halloc
            simp only [Harmless, step, halloc, reduceCtorEq, false_and, hbig]
      | reset =>
          have hreset : btHugepageReset hp = hp := by rw [btHugepageReset, ← hoffset]
          rw [tooLarge_reset_iff, along_cons_iff, ← ih]
          simp only [Harmless, step, hreset, Option.some.injEq, forall_eq', true_and]
      | destroy =>
          -- the arena is cleared, and without memory from then on
          have hdestroy := destroy_failed hbase
          refine iff_of_true ⟨congrArg Prod.snd hdestroy, fun hp' hstep => ?_⟩ tooLarge_destroy
          obtain rfl := Option.some.inj hstep
          rw [hdestroy]
          exact harmless_of_base_zero rfl ops

/-- The initialisation fails if and only if all its mappings fail. -/
theorem btHugepageInit_fails_iff (totalSize : UInt64) (use1gb : Int32) (mmap : Pages → UInt64) :
    (btHugepageInit totalSize use1gb mmap).2 = -1 ↔
      ¬ (use1gb ≠ 0 ∧ mmap .oneGb ≠ mapFailed) ∧ mmap .twoMb = mapFailed ∧
        mmap .regular = mapFailed := by
  have hne : ¬ (0 : Int32) = -1 := by decide
  unfold btHugepageInit
  split_ifs with hone htwo hregular <;> simp_all

/-- **An arena whose initialisation failed is harmless exactly if every request before it is
destroyed is larger than the arena was to be**: for every size, every flag, every pattern of failed
mappings and every later sequence of calls. -/
theorem failed_init_harmless_iff (totalSize : UInt64) (use1gb : Int32) (mmap : Pages → UInt64)
    (ops : List Op) :
    ((btHugepageInit totalSize use1gb mmap).2 = -1 →
        Along step Harmless (btHugepageInit totalSize use1gb mmap).1 ops) ↔
      (use1gb ≠ 0 ∧ mmap .oneGb ≠ mapFailed) ∨ mmap .twoMb ≠ mapFailed ∨
        mmap .regular ≠ mapFailed ∨ TooLarge totalSize ops := by
  rw [btHugepageInit_fails_iff]
  by_cases hfail : ¬ (use1gb ≠ 0 ∧ mmap .oneGb ≠ mapFailed) ∧ mmap .twoMb = mapFailed ∧
      mmap .regular = mapFailed
  · obtain ⟨hone, htwo, hregular⟩ := hfail
    have hinit : (btHugepageInit totalSize use1gb mmap).1 =
        ⟨mapFailed, align2mb totalSize, 0, use1gb⟩ := by
      simp only [btHugepageInit, if_neg hone, htwo, hregular, ne_eq, not_true, if_false, if_true]
      rfl
    rw [hinit, harmless_iff_tooLarge rfl rfl rfl]
    simp only [hone, htwo, hregular, ne_eq, not_true, false_or, not_false_iff, true_and,
      true_implies]
  · refine iff_of_true (fun h => absurd h hfail) ?_
    by_contra hcon
    simp only [not_or, not_not] at hcon
    exact hfail ⟨hcon.1, hcon.2.1, hcon.2.2.1⟩

/-- No mapping succeeds; the arena of 4 MB hands out `MAP_FAILED` to a request of one byte. -/
theorem map_failed_handed_out :
    (btHugepageInit 4194304 1 fun _ => mapFailed).2 = -1 ∧
      (btHugepageAlloc (btHugepageInit 4194304 1 fun _ => mapFailed).1 1).2 = some mapFailed ∧
      ¬ Along step Harmless (btHugepageInit 4194304 1 fun _ => mapFailed).1 [.alloc 1] := by
  refine ⟨by decide, by decide, fun h => ?_⟩
  have hnull : (btHugepageAlloc (btHugepageInit 4194304 1 fun _ => mapFailed).1 1).2 = none := h.1
  exact absurd hnull (by decide)

/-! ### The two bump allocators -/

/-- `bt_mempool_alloc` hands out what was asked for, or leaves the arena as it is. -/
def MempoolHonours (a : MemoryPool.Arena) (size : UInt64) : Prop :=
  Honours a.size MemoryPool.Arena.offset a size.toNat (MemoryPool.btMempoolAlloc a size.toNat)

/-- `bt_hugepage_alloc` hands out what was asked for, or leaves the arena as it is. -/
def HugepageHonours (hp : Arena) (size : UInt64) : Prop :=
  Honours hp.totalSize.toNat (fun hp => hp.offset.toNat) hp size.toNat (btHugepageAlloc hp size)

theorem bumps_mempool (a : MemoryPool.Arena) (size : ℕ) :
    Bumps 6 a.size MemoryPool.Arena.offset a size (MemoryPool.btMempoolAlloc a size) where
  refused hfull := if_pos hfull
  served hroom := by
    have hnot : ¬ a.size < (a.offset + cacheLines size) % 2 ^ 64 := Nat.not_lt.2 hroom
    rw [MemoryPool.btMempoolAlloc, if_neg hnot]
    exact ⟨Option.some_ne_none _, rfl⟩

/-- An arena with memory. -/
theorem bumps_hugepage {hp : Arena} (hbase : hp.base ≠ 0) (size : UInt64) :
    Bumps 21 hp.totalSize.toNat (fun hp => hp.offset.toNat) hp size.toNat
      (btHugepageAlloc hp size) := by
  have hstop : (hp.offset + align2mb size).toNat = stop 21 hp.offset.toNat size.toNat := by
    rw [UInt64.toNat_add, toNat_align2mb, stop]
  constructor
  · intro hfull
    rw [← hstop, ← UInt64.lt_iff_toNat_lt] at hfull
    rw [btHugepageAlloc, if_neg hbase, if_pos hfull]
  · intro hroom
    rw [← hstop, ← UInt64.le_iff_toNat_le] at hroom
    rw [btHugepageAlloc, if_neg hbase, if_neg (UInt64.not_lt.2 hroom)]
    exact ⟨Option.some_ne_none _, hstop⟩

/-- **Both allocators hand out what was asked for exactly if nothing wraps around**, or if the
wrapped sum is refused: for every state and every size. -/
theorem bump_honours_iff (a : MemoryPool.Arena) (hp : Arena) (size : UInt64)
    (ha : a.offset ≤ a.size) (hsize : a.size < 2 ^ 64) :
    (MempoolHonours a size ↔ a.size < (a.offset + roundUp 6 size.toNat) % 2 ^ 64 ∨
        a.offset + roundUp 6 size.toNat < 2 ^ 64) ∧
      (HugepageHonours hp size ↔ hp.base = 0 ∨
        hp.totalSize.toNat < (hp.offset.toNat + roundUp 21 size.toNat) % 2 ^ 64 ∨
        hp.offset.toNat + roundUp 21 size.toNat < 2 ^ 64) := by
  constructor
  · exact (bumps_mempool a size.toNat).honours_iff (by decide) (by omega) size.toNat_lt
  · by_cases hbase : hp.base = 0
    · have hnone : btHugepageAlloc hp size = (hp, none) := if_pos hbase
      refine iff_of_true ⟨fun h => ?_, fun _ => ?_⟩ (.inl hbase)
      · exact absurd (congrArg Prod.snd hnone) h
      · exact congrArg Prod.fst hnone
    · rw [or_iff_right hbase]
      exact (bumps_hugepage hbase size).honours_iff (by decide) hp.offset.toNat_lt size.toNat_lt

/-- An arena of one page. -/
def onePage : MemoryPool.Arena := ⟨2097152, 4096, 0, none, 0, 0, fun _ => none⟩

/-- An arena of one hugepage. -/
def oneHugepage : Arena := ⟨2097152, 2097152, 0, 0⟩

/-- A hundred bytes are handed out by both. -/
theorem hundred_bytes_honoured :
    onePage.offset ≤ onePage.size ∧ onePage.size < 2 ^ 64 ∧ MempoolHonours onePage 100 ∧
      HugepageHonours oneHugepage 100 := by
  have hiff := bump_honours_iff onePage oneHugepage 100 (by decide) (by decide)
  exact ⟨by decide, by decide, hiff.1.2 (.inr (by decide)), hiff.2.2 (.inr (.inr (by decide)))⟩

/-- The largest request of all is rounded up to nothing: both hand out a pointer, and have not
moved. -/
theorem largest_request_gets_nothing :
    (MemoryPool.btMempoolAlloc onePage (2 ^ 64 - 1)).2 = some 2097152 ∧
      (MemoryPool.btMempoolAlloc onePage (2 ^ 64 - 1)).1.offset = onePage.offset ∧
      ¬ MempoolHonours onePage (~~~0) ∧
      btHugepageAlloc oneHugepage (~~~0) = (oneHugepage, some 2097152) ∧
      ¬ HugepageHonours oneHugepage (~~~0) := by
  refine ⟨by decide, by decide, fun h => ?_, by decide, fun h => ?_⟩
  · have hfits := (h.1 (by decide)).fits
    exact absurd hfits (by decide)
  · have hfits := (h.1 (by decide)).fits
    exact absurd hfits (by decide)

end Hugepage
