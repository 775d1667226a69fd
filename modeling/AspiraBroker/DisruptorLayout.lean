/-
**Where the helpers of the disruptor look for its fields.**

`BT_DISRUPTOR_DEF` declares a queue with its fields aligned to cache lines: the cursor at the start,
`committed` from byte 64 on, and `buffer` behind it.  `bt_disruptor_claim_c` and
`bt_disruptor_commit_c` know neither the element type nor the capacity when they are compiled.  They
cast the queue to a struct of their own, in which a padding of 64 bytes stands between the cursor
and `committed`.  The cursor itself takes eight bytes, so that this `committed` starts at byte 72:

```
offset              0        8        64       72              56 + 8 N   64 + 8 N
BT_DISRUPTOR_DEF    cursor            entry 0  entry 1  ...    entry N-1  buffer
generic_d           cursor   padding           entry 0  ...    entry N-2  entry N-1
```

Entry `i` of the helpers is entry `i + 1` of the queue, and their last entry is the start of the
buffer.  So a commit never stores into the entry that it is to store into, and the commit of every
`N`-th number overwrites the first item; and a claim that looks at the last entry reads that item.

The machine here is that of `Disruptor.step`, run in the memory of a queue.  Seen through the layout
of the helpers it is that machine again, as long as no item is written over their last entry.

Main definitions:

* `Disruptor.Decl`, `Disruptor.Decl.fields`, `Disruptor.genericFields` — the two structs;
* `Disruptor.btDisruptorCommitC`, `Disruptor.reads`, `Disruptor.memStep` — the helpers in memory;
* `Disruptor.UsesLayout`, `Disruptor.Lands` — the property and its condition;
* `Disruptor.Views` — the state of the machine that a memory shows to the helpers.

Main results:

* `Disruptor.genericCommitted_eq`, `Disruptor.Decl.committedAt_end` — how the layouts are shifted;
* `Disruptor.layout_used_iff` — **the helpers keep to the layout of the queue exactly if no claim
  tests the last entry and every commit finds its number already in place**;
* `Disruptor.run_inside`, `Disruptor.run_mask` — no run writes outside of the cursor, `committed`
  and the buffer;
* `Disruptor.run_views` — the machine in memory simulates `Disruptor.step`;
* `Disruptor.commit_lands_behind` — a commit of each kind, and a claim, on a queue of eight bytes.
-/

import AspiraBroker.ByteMemory
import AspiraBroker.Disruptor

set_option relaxedAutoImplicit false
set_option autoImplicit false

namespace Disruptor

open AlignedCells BumpPointer ByteMemory Ring Transition

universe u v

variable {ι : Type u} {α : Type v}

/-! ### The two layouts -/

/-- A use of `BT_DISRUPTOR_DEF`: a capacity of `2 ^ k`, at least 8, and an element type, by its size
and the bytes of its values. -/
structure Decl (α : Type v) where
  k : Fin 64
  elemSize : ℕ
  encode : α → List UInt8
  length_encode : ∀ item, (encode item).length = elemSize
  elemSize_pos : 0 < elemSize
  eight_le : 8 ≤ 2 ^ k.val

/-- The fields of the queue: `cursor`, `committed`, `buffer`, `mask` and `_pad`. -/
def Decl.fields (d : Decl α) : List Field :=
  [⟨8, 6⟩, ⟨2 ^ d.k.val * 8, 6⟩, ⟨2 ^ d.k.val * d.elemSize, 6⟩, ⟨8, 3⟩, ⟨64, 0⟩]

/-- The fields of `struct generic_d`: `cursor`, `_pad1` and the open array `committed`. -/
def genericFields : List Field := [⟨8, 3⟩, ⟨64, 0⟩, ⟨0, 3⟩]

namespace Decl

variable (d : Decl α)

/-- `&queue->cursor`, as all addresses from the start of the queue. -/
def cursorAt : ℕ := offsetof d.fields 0

/-- `&queue->committed[i]`. -/
def committedAt (i : ℕ) : ℕ := cell (offsetof d.fields 1) 8 i

/-- `&queue->buffer[i]`. -/
def bufferAt (i : ℕ) : ℕ := cell (offsetof d.fields 2) d.elemSize i

/-- `&queue->mask`. -/
def maskAt : ℕ := offsetof d.fields 3

/-- The bytes of the cursor. -/
def cursorBytes : Set ℕ := bytes (offsetof d.fields 0) 8

/-- The bytes of the array `committed`. -/
def committedBytes : Set ℕ := bytes (offsetof d.fields 1) (2 ^ d.k.val * 8)

/-- The bytes of the array `buffer`. -/
def bufferBytes : Set ℕ := bytes (offsetof d.fields 2) (2 ^ d.k.val * d.elemSize)

end Decl

/-- `&q->cursor` of the helpers. -/
def genericCursor : ℕ := offsetof genericFields 0

/-- `&q->committed[i]` of the helpers. -/
def genericCommitted (i : ℕ) : ℕ := cell (offsetof genericFields 2) 8 i

section Layouts

variable (d : Decl α)

/-- The helpers find the cursor where it is. -/
theorem genericCursor_eq : genericCursor = d.cursorAt := rfl

theorem offsetof_committed : offsetof d.fields 1 = 64 := by
  simp only [offsetof, Decl.fields, offsetFrom]
  decide

theorem offsetof_genericCommitted : offsetof genericFields 2 = 72 := by decide

/-- The entries take whole cache lines, so that nothing stands between them and the buffer. -/
theorem offsetof_buffer : offsetof d.fields 2 = 64 + 2 ^ d.k.val * 8 := by
  have hk : 3 ≤ d.k.val := by
    by_contra hlt
    have hpow := Nat.pow_lt_pow_right (by decide : 1 < 2) (Nat.not_le.1 hlt)
    exact absurd d.eight_le (Nat.not_le.2 hpow)
  have hlines : 64 + 2 ^ d.k.val * 8 = (1 + 2 ^ (d.k.val - 3)) * 2 ^ 6 := by
    rw [← Nat.sub_add_cancel hk, Nat.pow_add, Nat.add_sub_cancel]
    omega
  have hplaced : offsetof d.fields 2 = roundUp 6 (offsetof d.fields 1 + 2 ^ d.k.val * 8) := by
    simp only [offsetof, Decl.fields, offsetFrom]
  rw [hplaced, offsetof_committed, hlines, roundUp_mul]

/-- **Entry `i` of the helpers is entry `i + 1` of the queue.** -/
theorem genericCommitted_eq (i : ℕ) : genericCommitted i = d.committedAt (i + 1) := by
  rw [genericCommitted, Decl.committedAt, offsetof_genericCommitted, offsetof_committed, cell, cell]
  omega

/-- **Behind the last entry the buffer starts.** -/
theorem Decl.committedAt_end : d.committedAt (2 ^ d.k.val) = d.bufferAt 0 := by
  rw [committedAt, bufferAt, offsetof_committed, offsetof_buffer, cell, cell]
  omega

theorem Decl.committedAt_apart {i j : ℕ} (hij : i ≠ j) :
    Apart (d.committedAt i) 8 (d.committedAt j) 8 := cell_apart _ 8 hij

/-- An entry lies in `committed`. -/
theorem Decl.committedAt_subset {i : ℕ} (hi : i < 2 ^ d.k.val) :
    bytes (d.committedAt i) 8 ⊆ d.committedBytes :=
  cells_subset le_rfl le_rfl (mem_cells.2 ⟨i, hi, rfl⟩)

/-- The buffer has at least eight bytes. -/
theorem Decl.bufferAt_subset : bytes (d.bufferAt 0) 8 ⊆ d.bufferBytes := by
  have hsize : 8 ≤ 2 ^ d.k.val * d.elemSize :=
    d.eight_le.trans (Nat.le_mul_of_pos_right _ d.elemSize_pos)
  refine bytes_subset ?_ ?_
  · exact Nat.le_add_right _ _
  · rw [bufferAt, cell]
    omega

/-- The buffer is apart from the fields before it. -/
theorem Decl.notMem_of_mem_buffer {x : ℕ} (hx : x ∈ d.bufferBytes) :
    x ∉ d.cursorBytes ∪ d.committedBytes := by
  have hcursor : Apart (offsetof d.fields 0) 8 (offsetof d.fields 2) (2 ^ d.k.val * d.elemSize) :=
    offsetof_apart (f := ⟨8, 6⟩) (g := ⟨_, 6⟩) rfl rfl (by decide)
  have hcommitted : Apart (offsetof d.fields 1) (2 ^ d.k.val * 8) (offsetof d.fields 2)
      (2 ^ d.k.val * d.elemSize) :=
    offsetof_apart (f := ⟨_, 6⟩) (g := ⟨_, 6⟩) rfl rfl (by decide)
  rintro (hin | hin)
  · exact Set.disjoint_left.1 hcursor.disjoint hin hx
  · exact Set.disjoint_left.1 hcommitted.disjoint hin hx

end Layouts

/-! ### The helpers in memory -/

/-- The loop of `BT_DISRUPTOR_INIT`, up to entry `i`. -/
def initCommitted (d : Decl α) (m : ℕ → UInt8) : ℕ → ℕ → UInt8
  | 0 => m
  | i + 1 => storeWord (initCommitted d m i) (d.committedAt i) sizeMax

/-- `BT_DISRUPTOR_INIT`, which knows the type of the queue. -/
def btDisruptorInit (d : Decl α) (m : ℕ → UInt8) : ℕ → UInt8 :=
  initCommitted d (storeWord (storeWord m d.cursorAt 0) d.maskAt (mask d.k)) (2 ^ d.k.val)

/-- `bt_disruptor_commit_c`. -/
def btDisruptorCommitC (k : Fin 64) (m : ℕ → UInt8) (seq : UInt64) : ℕ → UInt8 :=
  storeWord m (genericCommitted (slot k seq).toNat) seq

/-- The word that a claim reads in its next step. -/
def reads (k : Fin 64) : Pc α → Option ℕ
  | .enter _ | .load _ | .cas _ _ => some genericCursor
  | .first _ seq | .second _ seq => some (genericCommitted (slot k (wrapPoint k seq)).toNat)
  | .idle | .write _ _ | .commit _ => none

/-- The memory of the queue, and the producers. -/
structure Queue (ι : Type u) (α : Type v) where
  mem : ℕ → UInt8
  pc : ι → Pc α

section Machine

variable [DecidableEq ι]

/-- The producer moves on and the memory stays as it is. -/
def Queue.goto (s : Queue ι α) (p : ι) (pc : Pc α) : Queue ι α :=
  { s with pc := Function.update s.pc p pc }

/-- One step of `bt_disruptor_claim_c`, of the write of the item into `buffer[seq & mask]`, or of
`bt_disruptor_commit_c`. -/
def memStep (d : Decl α) (s : Queue ι α) : Act ι α → Option (Queue ι α)
  | .publish p item =>
      match s.pc p with
      | .idle => some (s.goto p (.enter item))
      | _ => none
  | .move p spurious =>
      match s.pc p with
      | .idle => none
      | .enter item => some (s.goto p (.load item))
      | .load item => some (s.goto p (.first item (loadWord s.mem genericCursor)))
      | .first item seq =>
          if loadWord s.mem (genericCommitted (slot d.k (wrapPoint d.k seq)).toNat) ≠ sizeMax then
            some (s.goto p (.second item seq))
          else some (s.goto p (.cas item seq))
      | .second item seq =>
          if loadWord s.mem (genericCommitted (slot d.k (wrapPoint d.k seq)).toNat) ≤
              wrapPoint d.k seq then
            some (s.goto p .idle)
          else some (s.goto p (.cas item seq))
      | .cas item seq =>
          if loadWord s.mem genericCursor = seq ∧ spurious = false then
            some { s.goto p (if seq = sizeMax then .idle else .write item seq) with
              mem := storeWord s.mem genericCursor (seq + 1) }
          else some (s.goto p (.load item))
      | .write item seq =>
          some { s.goto p (.commit seq) with
            mem := fill s.mem (d.bufferAt (slot d.k seq).toNat) (d.encode item) }
      | .commit seq =>
          some { s.goto p .idle with mem := btDisruptorCommitC d.k s.mem seq }

end Machine

/-! ### The property -/

/-- The memory `m'` is `m` with `seq` stored into its entry of `committed`: the entry holds it, and
neither another entry nor a byte of the buffer has changed. -/
structure CommitsTo (d : Decl α) (m m' : ℕ → UInt8) (seq : UInt64) : Prop where
  entry : loadWord m' (d.committedAt (slot d.k seq).toNat) = seq
  others : ∀ i < 2 ^ d.k.val, i ≠ (slot d.k seq).toNat →
    loadWord m' (d.committedAt i) = loadWord m (d.committedAt i)
  buffer : ∀ x ∈ d.bufferBytes, m' x = m x

/-- A claim reads nothing but the cursor and `committed`, and a commit stores its number into its
entry and nowhere else. -/
def UsesLayout (d : Decl α) (s : Queue ι α) : Act ι α → Prop
  | .publish _ _ => True
  | .move p _ =>
      (∀ a ∈ reads d.k (s.pc p), bytes a 8 ⊆ d.cursorBytes ∪ d.committedBytes) ∧
        ∀ seq, s.pc p = .commit seq → CommitsTo d s.mem (btDisruptorCommitC d.k s.mem seq) seq

/-- The number with which a claim tests whether the ring is full. -/
def Pc.tested : Pc α → Option UInt64
  | .first _ seq | .second _ seq => some seq
  | .idle | .enter _ | .load _ | .cas _ _ | .write _ _ | .commit _ => none

/-- A claim does not test at two before a full lap; a commit finds its number already in its entry
and in the word behind it. -/
def Lands (d : Decl α) (s : Queue ι α) : Act ι α → Prop
  | .publish _ _ => True
  | .move p _ =>
      (∀ seq ∈ (s.pc p).tested, (seq.toNat + 2) % 2 ^ d.k.val ≠ 0) ∧
        ∀ seq, s.pc p = .commit seq →
          loadWord s.mem (d.committedAt (slot d.k seq).toNat) = seq ∧
            loadWord s.mem (d.committedAt ((slot d.k seq).toNat + 1)) = seq

theorem toNat_slot_lt (k : Fin 64) (seq : UInt64) : (slot k seq).toNat < 2 ^ k.val := by
  rw [toNat_slot]
  exact Nat.mod_lt _ (capacity_pos k)

/-- The entry that a claim tests is that of the number after the one it has loaded. -/
theorem toNat_slot_wrapPoint (k : Fin 64) (seq : UInt64) :
    (slot k (wrapPoint k seq)).toNat = (seq.toNat + 1) % 2 ^ k.val := by
  have hdvd : 2 ^ k.val ∣ 2 ^ 64 := Nat.pow_dvd_pow 2 k.isLt.le
  obtain ⟨c, hc⟩ := Nat.dvd_sub hdvd (Nat.dvd_refl (2 ^ k.val))
  rw [toNat_slot, wrapPoint, UInt64.toNat_sub, toNat_capacity, Nat.mod_mod_of_dvd _ hdvd, hc,
    Nat.mul_add_mod, UInt64.toNat_add, Nat.mod_mod_of_dvd _ hdvd, UInt64.toNat_one]

/-- It is the last one at two before a full lap. -/
theorem succ_mod_lt_iff {n : ℕ} (hn : 0 < n) (x : ℕ) : (x + 1) % n + 1 < n ↔ (x + 2) % n ≠ 0 := by
  have hlt := Nat.mod_lt (x + 1) hn
  have hnext : (x + 2) % n = ((x + 1) % n + 1) % n := (Nat.mod_add_mod (x + 1) n 1).symm
  rw [hnext]
  rcases Nat.lt_or_ge ((x + 1) % n + 1) n with hless | hge
  · rw [Nat.mod_eq_of_lt hless]
    exact iff_of_true hless (Nat.succ_ne_zero _)
  · have heq : (x + 1) % n + 1 = n := by omega
    rw [heq, Nat.mod_self]
    exact iff_of_false (lt_irrefl n) fun h => h rfl

/-- An entry of the helpers lies in the fields before the buffer unless it is the last one. -/
theorem genericCommitted_subset_iff (d : Decl α) {i : ℕ} (hi : i < 2 ^ d.k.val) :
    bytes (genericCommitted i) 8 ⊆ d.cursorBytes ∪ d.committedBytes ↔ i + 1 < 2 ^ d.k.val := by
  rw [genericCommitted_eq d]
  constructor
  · intro hsub
    by_contra hlast
    obtain hend : i + 1 = 2 ^ d.k.val := by omega
    rw [hend, d.committedAt_end] at hsub
    have hmem : d.bufferAt 0 ∈ bytes (d.bufferAt 0) 8 :=
      ⟨le_rfl, Nat.lt_add_of_pos_right (by decide)⟩
    exact d.notMem_of_mem_buffer (d.bufferAt_subset hmem) (hsub hmem)
  · intro hlt
    exact (d.committedAt_subset hlt).trans Set.subset_union_right

/-- **Which claims read nothing but the cursor and `committed`.** -/
theorem reads_subset_iff (d : Decl α) (pc : Pc α) :
    (∀ a ∈ reads d.k pc, bytes a 8 ⊆ d.cursorBytes ∪ d.committedBytes) ↔
      ∀ seq ∈ pc.tested, (seq.toNat + 2) % 2 ^ d.k.val ≠ 0 := by
  have hcursor : bytes genericCursor 8 ⊆ d.cursorBytes ∪ d.committedBytes := by
    rw [genericCursor_eq d]
    exact Set.subset_union_left
  have htest (seq : UInt64) : bytes (genericCommitted (slot d.k (wrapPoint d.k seq)).toNat) 8 ⊆
      d.cursorBytes ∪ d.committedBytes ↔ (seq.toNat + 2) % 2 ^ d.k.val ≠ 0 := by
    rw [genericCommitted_subset_iff d (toNat_slot_lt _ _), toNat_slot_wrapPoint,
      succ_mod_lt_iff (capacity_pos _)]
  cases pc with
  | idle | write | commit => simp [reads, Pc.tested]
  | enter | load | cas => simp [reads, Pc.tested, hcursor]
  | first item seq | second item seq => simp [reads, Pc.tested, htest]

/-- **Which commits store their number into its entry and nowhere else.** -/
theorem commitsTo_iff (d : Decl α) (m : ℕ → UInt8) (seq : UInt64) :
    CommitsTo d m (btDisruptorCommitC d.k m seq) seq ↔
      loadWord m (d.committedAt (slot d.k seq).toNat) = seq ∧
        loadWord m (d.committedAt ((slot d.k seq).toNat + 1)) = seq := by
  have hi := toNat_slot_lt d.k seq
  have hcommit : btDisruptorCommitC d.k m seq =
      storeWord m (d.committedAt ((slot d.k seq).toNat + 1)) seq := by
    rw [btDisruptorCommitC, genericCommitted_eq d]
  rw [hcommit]
  constructor
  · intro h
    have hentry := h.entry
    rw [loadWord_storeWord_of_apart (d.committedAt_apart (Nat.succ_ne_self _))] at hentry
    refine ⟨hentry, ?_⟩
    -- the word behind the entry has changed, and it must not have
    rcases Nat.lt_or_ge ((slot d.k seq).toNat + 1) (2 ^ d.k.val) with hlt | hge
    · rw [← h.others _ hlt (Nat.succ_ne_self _), loadWord_storeWord]
    · have hend : (slot d.k seq).toNat + 1 = 2 ^ d.k.val := by omega
      have hbuffer := h.buffer
      rw [hend, d.committedAt_end] at hbuffer ⊢
      rw [← loadWord_congr fun x hx => hbuffer x (d.bufferAt_subset hx), loadWord_storeWord]
  · rintro ⟨hentry, hbehind⟩
    rw [storeWord_eq_self hbehind]
    exact ⟨hentry, fun _ _ _ => rfl, fun _ _ => rfl⟩

/-- **The helpers keep to the layout of the queue exactly if no claim tests the last entry and every
commit finds its number already in place**: for every element type, every capacity of a power of two
from 8 on, any number of producers, whatever the memory holds, and every run. -/
theorem layout_used_iff [DecidableEq ι] (d : Decl α) (s : Queue ι α) (acts : List (Act ι α)) :
    Along (memStep d) (UsesLayout d) s acts ↔ Along (memStep d) (Lands d) s acts := by
  refine along_iff_of_invariant (I := fun _ => True) (fun _ _ _ _ _ _ => trivial) ?_ trivial
  intro s a _
  cases a with
  | publish p item => exact Iff.rfl
  | move p spurious =>
      refine and_congr (reads_subset_iff d (s.pc p)) ?_
      exact forall_congr' fun seq => imp_congr_right fun _ => commitsTo_iff d s.mem seq

/-- A queue of bytes. -/
def byteQueue (k : Fin 64) (hk : 8 ≤ 2 ^ k.val) : Decl UInt8 :=
  ⟨k, 1, fun b => [b], fun _ => rfl, Nat.one_pos, hk⟩

/-- A queue of eight bytes after `BT_DISRUPTOR_INIT`.  The commit of 0 stores into entry 1, that of
7 into the buffer, and a claim that has loaded the cursor 6 reads the buffer. -/
theorem commit_lands_behind :
    ∃ d : Decl UInt8, ∃ m, d.k = 3 ∧ d.elemSize = 1 ∧ m = btDisruptorInit d (fun _ => 0) ∧
      (loadWord (btDisruptorCommitC d.k m 0) (d.committedAt 0) = sizeMax ∧
        loadWord (btDisruptorCommitC d.k m 0) (d.committedAt 1) = 0 ∧
        ¬ CommitsTo d m (btDisruptorCommitC d.k m 0) 0) ∧
      (m (d.bufferAt 0) = 0 ∧ btDisruptorCommitC d.k m 7 (d.bufferAt 0) = 7 ∧
        ¬ CommitsTo d m (btDisruptorCommitC d.k m 7) 7) ∧
      (reads d.k (.first 0 6 : Pc UInt8) = some (d.bufferAt 0) ∧
        ¬ bytes (d.bufferAt 0) 8 ⊆ d.cursorBytes ∪ d.committedBytes) := by
  refine ⟨byteQueue 3 (by decide), _, rfl, rfl, rfl,
    ⟨by decide +kernel, by decide +kernel, fun h => ?_⟩,
    ⟨by decide +kernel, by decide +kernel, fun h => ?_⟩, by decide +kernel, fun h => ?_⟩
  · exact absurd ((commitsTo_iff _ _ _).1 h).1 (by decide +kernel)
  · exact absurd ((commitsTo_iff _ _ _).1 h).1 (by decide +kernel)
  · have hmem : (byteQueue 3 (by decide)).bufferAt 0 ∈
        bytes ((byteQueue 3 (by decide)).bufferAt 0) 8 :=
      ⟨le_rfl, Nat.lt_add_of_pos_right (by decide)⟩
    exact Decl.notMem_of_mem_buffer _ (Decl.bufferAt_subset _ hmem) (h hmem)

/-! ### What a step can change -/

/-- The bytes of the fields but `mask` and `_pad`. -/
def Decl.ringBytes (d : Decl α) : Set ℕ := d.cursorBytes ∪ d.committedBytes ∪ d.bufferBytes

section Frame

variable {d : Decl α} {s s' : Queue ι α} {x : ℕ}

/-- An item lies in the buffer. -/
theorem Decl.item_subset {i : ℕ} (hi : i < 2 ^ d.k.val) :
    bytes (d.bufferAt i) d.elemSize ⊆ d.bufferBytes :=
  cells_subset le_rfl le_rfl (mem_cells.2 ⟨i, hi, rfl⟩)

/-- An entry of the helpers lies in `committed` or in the buffer. -/
theorem genericCommitted_subset {i : ℕ} (hi : i < 2 ^ d.k.val) :
    bytes (genericCommitted i) 8 ⊆ d.committedBytes ∪ d.bufferBytes := by
  rw [genericCommitted_eq d]
  rcases Nat.lt_or_ge (i + 1) (2 ^ d.k.val) with hlt | hge
  · exact (d.committedAt_subset hlt).trans Set.subset_union_left
  · have hend : i + 1 = 2 ^ d.k.val := by omega
    rw [hend, d.committedAt_end]
    exact d.bufferAt_subset.trans Set.subset_union_right

variable [DecidableEq ι]

/-- A step changes nothing but the cursor, `committed` and the buffer. -/
theorem step_inside {a : Act ι α} (hstep : memStep d s a = some s') (hx : x ∉ d.ringBytes) :
    s'.mem x = s.mem x := by
  have hcursor : x ∉ bytes genericCursor 8 := fun h => hx (.inl (.inl h))
  cases a with
  | publish p item =>
      simp only [memStep] at hstep
      split at hstep
      · obtain rfl := Option.some.inj hstep
        rfl
      · cases hstep
  | move p spurious =>
      simp only [memStep] at hstep
      split at hstep
      · cases hstep
      · obtain rfl := Option.some.inj hstep
        rfl
      · obtain rfl := Option.some.inj hstep
        rfl
      · split at hstep <;> obtain rfl := Option.some.inj hstep <;> rfl
      · split at hstep <;> obtain rfl := Option.some.inj hstep <;> rfl
      · split at hstep
        · obtain rfl := Option.some.inj hstep
          exact storeWord_of_notMem hcursor
        · obtain rfl := Option.some.inj hstep
          rfl
      · next item seq _ =>
          obtain rfl := Option.some.inj hstep
          refine fill_of_notMem fun hin => hx (.inr ?_)
          rw [d.length_encode] at hin
          exact d.item_subset (toNat_slot_lt d.k seq) hin
      · next seq _ =>
          obtain rfl := Option.some.inj hstep
          refine storeWord_of_notMem fun hin => hx ?_
          rcases genericCommitted_subset (toNat_slot_lt d.k seq) hin with hin | hin
          · exact .inl (.inr hin)
          · exact .inr hin

/-- **A run changes nothing but the cursor, `committed` and the buffer.** -/
theorem run_inside {acts : List (Act ι α)} (hrun : run (memStep d) s acts = some s')
    (hx : x ∉ d.ringBytes) : s'.mem x = s.mem x :=
  run_induction (I := fun t => t.mem x = s.mem x) (G := fun _ _ => True)
    (fun _ _ _ hkept _ hstep => (step_inside hstep hx).trans hkept) rfl
    (along_of_forall (fun _ _ => trivial) s acts) hrun

/-- **The mask of the queue is never overwritten.** -/
theorem run_mask {acts : List (Act ι α)} (hrun : run (memStep d) s acts = some s') :
    loadWord s'.mem d.maskAt = loadWord s.mem d.maskAt := by
  refine loadWord_congr fun x hx => run_inside hrun ?_
  have hcursor : Apart (offsetof d.fields 0) 8 d.maskAt 8 :=
    offsetof_apart (f := ⟨8, 6⟩) (g := ⟨8, 3⟩) rfl rfl (by decide)
  have hcommitted : Apart (offsetof d.fields 1) (2 ^ d.k.val * 8) d.maskAt 8 :=
    offsetof_apart (f := ⟨_, 6⟩) (g := ⟨8, 3⟩) rfl rfl (by decide)
  have hbuffer : Apart (offsetof d.fields 2) (2 ^ d.k.val * d.elemSize) d.maskAt 8 :=
    offsetof_apart (f := ⟨_, 6⟩) (g := ⟨8, 3⟩) rfl rfl (by decide)
  rintro ((hin | hin) | hin)
  · exact Set.disjoint_left.1 hcursor.disjoint hin hx
  · exact Set.disjoint_left.1 hcommitted.disjoint hin hx
  · exact Set.disjoint_left.1 hbuffer.disjoint hin hx

end Frame

/-! ### The machine that the helpers see -/

/-- The state of the machine that the memory shows to the helpers. -/
structure Views (k : Fin 64) (s : Queue ι α) (t : Sys ι α) : Prop where
  cursor : t.cursor = loadWord s.mem genericCursor
  committed : ∀ seq, t.committed (slot k seq) = loadWord s.mem (genericCommitted (slot k seq).toNat)
  pc : t.pc = s.pc

/-- An item is not written over the last entry of the helpers, which is the start of the buffer. -/
def Clear (d : Decl α) (s : Queue ι α) : Act ι α → Prop
  | .publish _ _ => True
  | .move p _ => ∀ item seq, s.pc p = .write item seq → 8 ≤ (slot d.k seq).toNat * d.elemSize

section Simulation

variable {d : Decl α} {k : Fin 64} {s s' : Queue ι α} {t : Sys ι α}

/-- Entries of the helpers do not overlap, and none overlaps the cursor. -/
theorem genericCommitted_apart {i j : ℕ} (hij : i ≠ j) :
    Apart (genericCommitted i) 8 (genericCommitted j) 8 := cell_apart _ 8 hij

theorem genericCursor_apart (i : ℕ) : Apart genericCursor 8 (genericCommitted i) 8 := by
  left
  rw [genericCommitted, offsetof_genericCommitted, cell, show genericCursor = 0 by decide]
  omega

/-- An item that is clear of the last entry is clear of all of them, and of the cursor. -/
theorem apart_of_clear {i j n : ℕ} (hj : j < 2 ^ d.k.val) (hclear : 8 ≤ i * d.elemSize) :
    Apart (d.bufferAt i) n (genericCommitted j) 8 ∧ Apart (d.bufferAt i) n genericCursor 8 := by
  have hle := Nat.mul_le_mul_right 8 hj
  rw [Nat.succ_mul] at hle
  have hcursor : genericCursor = 0 := by decide
  refine ⟨.inr ?_, .inr ?_⟩
  · rw [genericCommitted, Decl.bufferAt, offsetof_genericCommitted, offsetof_buffer, cell, cell]
    omega
  · rw [hcursor, Decl.bufferAt, offsetof_buffer, cell]
    omega

/-- Whatever the memory holds, the helpers see a state of the machine. -/
theorem exists_views (k : Fin 64) (s : Queue ι α) : ∃ t, Views k s t :=
  ⟨⟨loadWord s.mem genericCursor, fun i => loadWord s.mem (genericCommitted i.toNat),
    fun _ => none, s.pc⟩, rfl, fun _ => rfl, rfl⟩

/-- The cursor is stored. -/
theorem Views.storeCursor (h : Views k s t) (seq : UInt64) :
    Views k { s with mem := storeWord s.mem genericCursor seq } { t with cursor := seq } where
  cursor := loadWord_storeWord.symm
  committed n := by
    rw [loadWord_storeWord_of_apart (genericCursor_apart _)]
    exact h.committed n
  pc := h.pc

/-- An item is written, clear of the last entry. -/
theorem Views.writeItem (h : Views d.k s t) {i : ℕ} (hclear : 8 ≤ i * d.elemSize) (bs : List UInt8)
    (buffer : UInt64 → Option α) :
    Views d.k { s with mem := fill s.mem (d.bufferAt i) bs } { t with buffer := buffer } where
  cursor := by
    rw [loadWord_fill_of_apart (apart_of_clear (capacity_pos d.k) hclear).2]
    exact h.cursor
  committed n := by
    rw [loadWord_fill_of_apart (apart_of_clear (toNat_slot_lt d.k n) hclear).1]
    exact h.committed n
  pc := h.pc

/-- A number is committed. -/
theorem Views.commit (h : Views k s t) (seq : UInt64) :
    Views k { s with mem := btDisruptorCommitC k s.mem seq }
      { t with committed := Function.update t.committed (slot k seq) seq } where
  cursor := by
    rw [btDisruptorCommitC, loadWord_storeWord_of_apart (genericCursor_apart _).symm]
    exact h.cursor
  committed n := by
    change Function.update t.committed (slot k seq) seq (slot k n) = loadWord (storeWord _ _ _) _
    by_cases hn : slot k n = slot k seq
    · rw [hn, Function.update_self, loadWord_storeWord]
    · have hne : (slot k seq).toNat ≠ (slot k n).toNat := fun heq =>
        hn (UInt64.toNat_inj.1 heq.symm)
      rw [Function.update_of_ne hn, loadWord_storeWord_of_apart (genericCommitted_apart hne)]
      exact h.committed n
  pc := h.pc

variable [DecidableEq ι]

/-- The producer moves on. -/
theorem Views.goto (h : Views k s t) (p : ι) (pc : Pc α) : Views k (s.goto p pc) (t.goto p pc) where
  cursor := h.cursor
  committed := h.committed
  pc := by rw [Sys.goto, Queue.goto, h.pc]

/-- **A step in memory is a step of the machine**, if no item is written over the last entry. -/
theorem step_views (h : Views d.k s t) {a : Act ι α} (hclear : Clear d s a)
    (hstep : memStep d s a = some s') : ∃ t', step d.k t a = some t' ∧ Views d.k s' t' := by
  cases a with
  | publish p item =>
      simp only [memStep] at hstep
      split at hstep
      · next hpc =>
          obtain rfl := Option.some.inj hstep
          refine ⟨t.goto p (.enter item), ?_, h.goto p _⟩
          simp only [step, h.pc, hpc]
      · cases hstep
  | move p spurious =>
      simp only [memStep] at hstep
      simp only [step, h.pc]
      cases hpc : s.pc p with
      | idle =>
          rw [hpc] at hstep
          cases hstep
      | enter item =>
          rw [hpc] at hstep
          obtain rfl := Option.some.inj hstep
          exact ⟨_, rfl, h.goto p _⟩
      | load item =>
          rw [hpc] at hstep
          obtain rfl := Option.some.inj hstep
          refine ⟨_, rfl, ?_⟩
          rw [h.cursor]
          exact h.goto p _
      | first item seq | second item seq =>
          simp only [hpc] at hstep
          simp only [h.committed]
          split at hstep
          · next htest =>
              obtain rfl := Option.some.inj hstep
              exact ⟨_, if_pos htest, h.goto p _⟩
          · next htest =>
              obtain rfl := Option.some.inj hstep
              exact ⟨_, if_neg htest, h.goto p _⟩
      | cas item seq =>
          simp only [hpc] at hstep
          simp only [h.cursor]
          split at hstep
          · next hswap =>
              obtain rfl := Option.some.inj hstep
              exact ⟨_, if_pos hswap, (h.goto p _).storeCursor (seq + 1)⟩
          · next hswap =>
              obtain rfl := Option.some.inj hstep
              exact ⟨_, if_neg hswap, h.goto p _⟩
      | write item seq =>
          simp only [hpc] at hstep
          obtain rfl := Option.some.inj hstep
          exact ⟨_, rfl, (h.goto p _).writeItem (hclear item seq hpc) _ _⟩
      | commit seq =>
          simp only [hpc] at hstep
          obtain rfl := Option.some.inj hstep
          exact ⟨_, rfl, (h.goto p _).commit seq⟩

/-- **The machine in memory simulates `Disruptor.step`** along every run in which no item is written
over the last entry. -/
theorem run_views (h : Views d.k s t) {acts : List (Act ι α)}
    (hclear : Along (memStep d) (Clear d) s acts) (hrun : run (memStep d) s acts = some s') :
    ∃ t', run (step d.k) t acts = some t' ∧ Views d.k s' t' := by
  induction acts generalizing s t with
  | nil =>
      obtain rfl := Option.some.inj hrun
      exact ⟨t, rfl, h⟩
  | cons a acts ih =>
      obtain ⟨v, hstep, hrun⟩ := run_cons_iff.1 hrun
      obtain ⟨u, hstep', hu⟩ := step_views h hclear.1 hstep
      obtain ⟨t', hrun', ht'⟩ := ih hu (hclear.2 v hstep) hrun
      exact ⟨t', (run_cons_eq hstep' acts).trans hrun', ht'⟩

end Simulation

end Disruptor
