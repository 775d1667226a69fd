/-
**How a memory pool cuts up its slab.**

`bt_mempool_init` cuts the slab of a pool into a data region for each arena, all of the same whole
number of pages, and puts the array of arena descriptors behind the part that it divides.  The size
of that part is what the array leaves of the slab, by an unsigned subtraction that nothing guards.
If the array fits, the layout is sound: the data regions and the array do not overlap and lie in the
slab.  If it does not fit, the difference wraps around, and the array starts in front of the slab,
where the loop that follows fills it in; the function still returns 0.

Main definitions:

* `MempoolLayout.Backing` — the memory that the platform gives for a slab;
* `MempoolLayout.btMempoolInit` — the whole of `bt_mempool_init`;
* `MempoolLayout.Sound` — the regions are disjoint and inside of the slab.

Main results:

* `MempoolLayout.descriptor_eq_fresh` — the arenas of a sound layout are fresh arenas over their
  regions;
* `MempoolLayout.layout_sound_iff` — **the layout is sound exactly if the array of descriptors fits
  into the slab**;
* `MempoolLayout.two_arenas_in_a_cache_line` — a slab that is too small.
-/

import AspiraBroker.MemoryPool
import AspiraBroker.MempoolArenas

set_option relaxedAutoImplicit false
set_option autoImplicit false

namespace MempoolLayout

open AlignedCells ArenaPool

/-! ### The whole initialisation -/

/-- The backing allocation: memory of as many bytes as were asked for. -/
structure Backing (totalSize : UInt64) extends Region where
  size_eq : size = totalSize.toNat

/-- `arena_size`: an even share of what is in front of the array, in whole pages. -/
def arenaSize (P : Pool) : UInt64 := P.arenas / UInt64.ofNat P.numArenas &&& ~~~4095

/-- What the loop stores into `arenas[i]`; the memory of the slab holds `next`. -/
def descriptor (base : ℕ) (P : Pool) (next : ℕ → Option ℕ) (i : ℕ) : MemoryPool.Arena where
  base := (base + (UInt64.ofNat i * arenaSize P).toNat) % 2 ^ 64
  size := (arenaSize P).toNat
  offset := 0
  freeOrders := none
  allocCount := 0
  freeCount := 0
  next := next

/-- A `bt_mempool_t`, with the address of its array and what the array holds. -/
structure Mempool where
  pool : Pool
  arenas : ℕ
  descriptors : List MemoryPool.Arena

/-- `bt_mempool_init`, with the answer of the platform to the allocation of the slab; `none` is the
result -1. -/
def btMempoolInit (slab : ℕ) (totalSize : UInt64) (numArenas : Int32)
    (backing : Option (Backing totalSize)) (next : ℕ → Option ℕ) : Option Mempool :=
  if totalSize = 0 ∨ numArenas < 1 then none
  else backing.map fun mem =>
    let P := ArenaPool.btMempoolInit slab totalSize numArenas
    { pool := P
      arenas := (mem.base + P.arenas.toNat) % 2 ^ 64
      descriptors := (List.range P.numArenas).map (descriptor mem.base P next) }

/-- The bytes of the array of descriptors. -/
def Mempool.array (m : Mempool) : Set ℕ := bytes m.arenas (m.pool.numArenas * sizeofArena)

/-- There is a data region for each arena; the data regions and the array of descriptors do not
overlap, and lie in the slab. -/
structure Sound (mem : Region) (m : Mempool) : Prop where
  count : m.descriptors.length = m.pool.numArenas
  data_inside : ∀ a ∈ m.descriptors, bytes a.base a.size ⊆ mem.bytes
  array_inside : m.array ⊆ mem.bytes
  data_apart : m.descriptors.Pairwise fun a b =>
    Disjoint (bytes a.base a.size) (bytes b.base b.size)
  array_apart : ∀ a ∈ m.descriptors, Disjoint (bytes a.base a.size) m.array

/-! ### An array that fits -/

section Fits

variable {P : Pool}

theorem toNat_arenaSize (hP : P.WellFormed) :
    (arenaSize P).toNat = P.arenas.toNat / P.numArenas / 4096 * 4096 := by
  have hlt := hP.lt
  have hnum : (UInt64.ofNat P.numArenas).toNat = P.numArenas := by
    rw [UInt64.toNat_ofNat']
    exact Nat.mod_eq_of_lt (by omega)
  have hdiv : P.arenas.toNat / P.numArenas < 2 ^ 64 :=
    (Nat.div_le_self _ _).trans_lt P.arenas.toNat_lt
  have hmask : (~~~(4095 : UInt64)).toNat = 2 ^ 64 - 2 ^ 12 := by decide
  rw [arenaSize, UInt64.toNat_and, UInt64.toNat_div, hnum, hmask, land_mask (by decide) hdiv]
  rfl

/-- The shares of the arenas are no more than what there is to share. -/
theorem mul_arenaSize_le (hP : P.WellFormed) :
    P.numArenas * (arenaSize P).toNat ≤ P.arenas.toNat := by
  rw [toNat_arenaSize hP]
  calc P.numArenas * (P.arenas.toNat / P.numArenas / 4096 * 4096)
      ≤ P.numArenas * (P.arenas.toNat / P.numArenas) :=
        Nat.mul_le_mul_left _ (Nat.div_mul_le_self _ _)
    _ ≤ P.arenas.toNat := Nat.mul_div_le _ _

/-- Where the array fits, nothing is lost of the slab: the array ends where the slab ends. -/
theorem arenas_add_array (hP : P.WellFormed) (hfit : P.Fits) :
    P.arenas.toNat + P.numArenas * sizeofArena = P.totalSize.toNat := by
  have hle : P.numArenas * sizeofArena ≤ P.totalSize.toNat := hfit
  rw [hP.arenas, UInt64.toNat_sub_of_le _ _ (UInt64.le_iff_toNat_le.2 (by rwa [hP.toNat_size])),
    hP.toNat_size]
  omega

variable (mem : Backing P.totalSize) (next : ℕ → Option ℕ)

/-- The data regions are cells of the slab. -/
theorem descriptor_base (hP : P.WellFormed) (hfit : P.Fits) {i : ℕ} (hi : i < P.numArenas) :
    (descriptor mem.base P next i).base = cell mem.base (arenaSize P).toNat i := by
  have hlt := hP.lt
  have hshare := mul_arenaSize_le hP
  have hend := arenas_add_array hP hfit
  have htop := mem.top
  rw [mem.size_eq] at htop
  have hmul : i * (arenaSize P).toNat ≤ P.numArenas * (arenaSize P).toNat :=
    Nat.mul_le_mul_right _ hi.le
  have hi' : (UInt64.ofNat i).toNat = i := by
    rw [UInt64.toNat_ofNat']
    exact Nat.mod_eq_of_lt (by omega)
  have hbound : i * (arenaSize P).toNat < 2 ^ 64 := by omega
  change (mem.base + (UInt64.ofNat i * arenaSize P).toNat) % 2 ^ 64 = _
  rw [UInt64.toNat_mul, hi', Nat.mod_eq_of_lt hbound]
  exact Nat.mod_eq_of_lt (by omega)

/-- **The arenas of a layout that fits are fresh arenas**, each over its part of the slab. -/
theorem descriptor_eq_fresh (hP : P.WellFormed) (hfit : P.Fits) {i : ℕ} (hi : i < P.numArenas) :
    ∃ r : Region, descriptor mem.base P next i = MemoryPool.Arena.fresh r next ∧
      r.bytes ⊆ bytes mem.base P.arenas.toNat := by
  have hbase : (descriptor mem.base P next i).base = cell mem.base (arenaSize P).toNat i :=
    descriptor_base mem next hP hfit hi
  have hcell : cell mem.base (arenaSize P).toNat i ∈
      cells mem.base (arenaSize P).toNat P.numArenas := mem_cells.2 ⟨i, hi, rfl⟩
  obtain ⟨hlo, hhi⟩ := cells_bounds hcell
  have hshare := mul_arenaSize_le hP
  have hend := arenas_add_array hP hfit
  have hpage := mem.page
  have htop := mem.top
  rw [mem.size_eq] at htop
  -- the region is described by the base that is stored, which is the cell
  have hin : bytes (descriptor mem.base P next i).base (arenaSize P).toNat ⊆
      bytes mem.base P.arenas.toNat := by
    rw [hbase]
    exact cells_subset le_rfl hshare hcell
  rw [← hbase] at hlo hhi
  have hstop : (descriptor mem.base P next i).base + (arenaSize P).toNat < 2 ^ 64 := by omega
  exact ⟨⟨_, _, hpage.trans hlo, hstop⟩, rfl, hin⟩

/-- Two data regions do not overlap. -/
theorem descriptor_disjoint (hP : P.WellFormed) (hfit : P.Fits) {i j : ℕ} (hi : i < P.numArenas)
    (hj : j < P.numArenas) (hij : i ≠ j) :
    Disjoint (bytes (descriptor mem.base P next i).base (arenaSize P).toNat)
      (bytes (descriptor mem.base P next j).base (arenaSize P).toNat) := by
  rw [descriptor_base mem next hP hfit hi, descriptor_base mem next hP hfit hj]
  exact (cell_apart _ _ hij).disjoint

end Fits

/-! ### The layout -/

section Layout

variable {slab : ℕ} {totalSize : UInt64} {numArenas : Int32} {mem : Backing totalSize}
  {next : ℕ → Option ℕ} {m : Mempool}

/-- What is left by a call that returns 0. -/
theorem btMempoolInit_eq_some
    (h : btMempoolInit slab totalSize numArenas (some mem) next = some m) :
    (ArenaPool.btMempoolInit slab totalSize numArenas).WellFormed ∧
      m.pool = ArenaPool.btMempoolInit slab totalSize numArenas ∧
      m.arenas = (mem.base + m.pool.arenas.toNat) % 2 ^ 64 ∧
      m.descriptors = (List.range m.pool.numArenas).map (descriptor mem.base m.pool next) := by
  simp only [btMempoolInit, Option.map_some, Option.ite_none_left_eq_some, Option.some.injEq,
    not_or] at h
  obtain ⟨⟨-, hnum⟩, rfl⟩ := h
  exact ⟨wellFormed_init hnum, rfl, rfl, rfl⟩

/-- A layout whose array fits is sound. -/
theorem sound_of_fits (h : btMempoolInit slab totalSize numArenas (some mem) next = some m)
    (hfit : m.pool.Fits) : Sound mem.toRegion m := by
  obtain ⟨hP, hpool, harenas, hdescriptors⟩ := btMempoolInit_eq_some h
  rw [← hpool] at hP
  have htotal : m.pool.totalSize = totalSize := by
    rw [hpool]
    rfl
  subst htotal
  have hend := arenas_add_array hP hfit
  have htop := mem.top
  rw [mem.size_eq] at htop
  have harray : m.arenas = mem.base + m.pool.arenas.toNat := by
    rw [harenas]
    exact Nat.mod_eq_of_lt (by omega)
  have hsize : m.array =
      bytes (mem.base + m.pool.arenas.toNat) (m.pool.numArenas * sizeofArena) := by
    rw [Mempool.array, harray]
  -- every data region lies in front of the array
  have hfront : ∀ a ∈ m.descriptors, bytes a.base a.size ⊆ bytes mem.base m.pool.arenas.toNat := by
    intro a ha
    rw [hdescriptors] at ha
    obtain ⟨i, hi, rfl⟩ := List.mem_map.1 ha
    obtain ⟨r, hr, hin⟩ := descriptor_eq_fresh mem next hP hfit (List.mem_range.1 hi)
    rw [hr]
    exact hin
  refine ⟨by rw [hdescriptors, List.length_map, List.length_range], fun a ha => ?_, ?_, ?_,
    fun a ha => ?_⟩
  · exact (hfront a ha).trans (bytes_subset le_rfl (by rw [mem.size_eq]; omega))
  · rw [hsize]
    exact bytes_subset (by omega) (by rw [mem.size_eq]; omega)
  · rw [hdescriptors, List.pairwise_map]
    refine List.Pairwise.imp_of_mem ?_ List.nodup_range
    intro i j hi hj hij
    exact descriptor_disjoint mem next hP hfit (List.mem_range.1 hi) (List.mem_range.1 hj) hij
  · rw [hsize]
    exact Set.disjoint_of_subset_left (hfront a ha) (Apart.disjoint (.inl le_rfl))

/-- An array that lies in the slab fits into it. -/
theorem fits_of_sound (h : btMempoolInit slab totalSize numArenas (some mem) next = some m)
    (hsound : Sound mem.toRegion m) : m.pool.Fits := by
  obtain ⟨hP, hpool, -⟩ := btMempoolInit_eq_some h
  rw [← hpool] at hP
  have hpos : 0 < m.pool.numArenas * sizeofArena := Nat.mul_pos hP.pos (by decide)
  obtain ⟨hlo, hhi⟩ := bounds_of_bytes_subset hsound.array_inside hpos
  have hsize : mem.size = m.pool.totalSize.toNat := by
    rw [mem.size_eq, hpool]
    rfl
  rw [hsize] at hhi
  exact Nat.le_of_add_le_add_left ((Nat.add_le_add_right hlo _).trans hhi)

/-- The condition in terms of the arguments. -/
theorem fits_iff (hnum : ¬ numArenas < 1) :
    (ArenaPool.btMempoolInit slab totalSize numArenas).Fits ↔
      64 * numArenas.toInt ≤ totalSize.toNat := by
  have hle : (1 : Int32).toInt ≤ numArenas.toInt := Int32.le_iff_toInt_le.1 (Int32.not_lt.1 hnum)
  have hone : (1 : Int32).toInt = 1 := by decide
  change numArenas.toInt.toNat * 64 ≤ totalSize.toNat ↔ _
  omega

end Layout

/-- **The layout of a pool is sound exactly if the array of descriptors fits into the slab**: for
every size, every number of arenas and every place of the slab. -/
theorem layout_sound_iff (slab : ℕ) (totalSize : UInt64) (numArenas : Int32)
    (mem : Backing totalSize) (next : ℕ → Option ℕ) :
    (∀ m, btMempoolInit slab totalSize numArenas (some mem) next = some m →
        Sound mem.toRegion m) ↔
      totalSize = 0 ∨ numArenas < 1 ∨ 64 * numArenas.toInt ≤ totalSize.toNat := by
  by_cases hargs : totalSize = 0 ∨ numArenas < 1
  · -- the call returns -1
    have hnone : btMempoolInit slab totalSize numArenas (some mem) next = none := if_pos hargs
    refine iff_of_true (fun m hm => ?_) (or_assoc.1 (.inl hargs))
    rw [hnone] at hm
    cases hm
  · obtain ⟨m, hm⟩ : ∃ m, btMempoolInit slab totalSize numArenas (some mem) next = some m :=
      ⟨_, if_neg hargs⟩
    obtain ⟨-, hpool, -⟩ := btMempoolInit_eq_some hm
    have hfits : m.pool.Fits ↔ 64 * numArenas.toInt ≤ totalSize.toNat := by
      rw [hpool]
      exact fits_iff fun h => hargs (.inr h)
    rw [← or_assoc, or_iff_right hargs, ← hfits]
    constructor
    · intro hsound
      exact fits_of_sound hm (hsound m hm)
    · intro hfit m' hm'
      obtain rfl := Option.some.inj (hm.symm.trans hm')
      exact sound_of_fits hm hfit

/-- Memory for a slab of 64 bytes. -/
def cacheLine : Backing 64 := ⟨⟨2097152, 64, by decide, by decide⟩, rfl⟩

/-- Two arenas in 64 bytes: the call returns 0, with the array of 128 bytes in front of the slab. -/
theorem two_arenas_in_a_cache_line :
    ∃ m, btMempoolInit 0 64 2 (some cacheLine) (fun _ => none) = some m ∧
      m.arenas = cacheLine.base - 64 ∧ ¬ Sound cacheLine.toRegion m := by
  refine ⟨_, rfl, by decide, fun hsound => ?_⟩
  obtain ⟨hlo, -⟩ := bounds_of_bytes_subset hsound.array_inside (by decide)
  exact absurd hlo (by decide)

end MempoolLayout
