/-
**The table of the hash map.**

The slots of the map, read as empty, dead or full, form a table with linear probing.  This module
states the invariant of the map and proves one lemma for each function: what the searches find, what
a put, a removal and a resize do to the bindings, and that the load test leaves an empty slot on
every way although an erased slot that is used again stays counted as erased.

Main definitions:

* `Hashmap.cells` — the slots as a table with linear probing;
* `Hashmap.Bound` — the key is bound to the value;
* `Hashmap.Sized` — the sizes alone, which is all that the searches need;
* `Hashmap.WellFormed` — the invariant;
* `Hashmap.Ready` — a map with room, holding the bindings of another.

Main results:

* `Hashmap.btHashmapInit_wellFormed` — the invariant holds initially;
* `Hashmap.WellFormed.findSlot_eq_some_iff`, `Hashmap.WellFormed.findSlot_eq_none_iff` — **the
  search is right**;
* `Hashmap.WellFormed.remove`, `Hashmap.WellFormed.clear`, `Hashmap.WellFormed.insert` — the
  invariant is kept, and what becomes of the bindings;
* `Hashmap.WellFormed.resize` — a resize keeps the bindings and calls no further resize;
* `Hashmap.WellFormed.put_cases` — **a put runs out of memory, or inserts into a map with room**.
-/

import AspiraBroker.Hashmap
import AspiraBroker.LinearProbing

set_option relaxedAutoImplicit false
set_option autoImplicit false

namespace Hashmap

open Search Probing

/-! ### The slots as a table with linear probing -/

/-- A slot, read as a cell of the table. -/
def Entry.cell (e : Entry) : Cell UInt64 UInt64 :=
  if e.value = 0 then .empty
  else if e.value = btHashmapTombstone then .dead
  else .full e.key e.value

/-- The slots of the map as a table with linear probing. -/
def cells (m : Map) : ℕ → Cell UInt64 UInt64 := fun i => (m.entries i).cell

/-- The key is bound to the value. -/
def Bound (m : Map) (key value : UInt64) : Prop := Binds m.capacity (cells m) key value

theorem cell_eq_empty_iff {e : Entry} : e.cell = .empty ↔ e.value = 0 := by
  unfold Entry.cell
  split
  · simp [*]
  · next hne => split <;> simp [hne]

theorem cell_eq_dead_iff {e : Entry} : e.cell = .dead ↔ e.value = btHashmapTombstone := by
  unfold Entry.cell
  split
  · next h => simp [h, btHashmapTombstone]
  · split <;> simp [*]

theorem cell_eq_full_iff {e : Entry} {k v : UInt64} :
    e.cell = .full k v ↔ e.isLive = true ∧ e.key = k ∧ e.value = v := by
  unfold Entry.cell Entry.isLive
  split
  · simp [*]
  · split <;> simp [*]

theorem cell_isFull (e : Entry) : e.cell.isFull = e.isLive := by
  unfold Entry.cell Entry.isLive
  split
  · simp [*, Cell.isFull]
  · split <;> simp [*, Cell.isFull]

/-- Writing a slot of the map writes the cell. -/
theorem cells_update (m : Map) (i : ℕ) (e : Entry) :
    (fun j => (Function.update m.entries i e j).cell) = Function.update (cells m) i e.cell := by
  funext j
  by_cases h : j = i
  · rw [h, Function.update_self, Function.update_self]
  · rw [Function.update_of_ne h, Function.update_of_ne h]
    rfl

@[simp] theorem value_cell (k : UInt64) (v : Value) :
    (Entry.mk k v.bits).cell = .full k v.bits := by
  simp [Entry.cell, v.ne_null, v.ne_tombstone]

@[simp] theorem tombstone_cell (k : UInt64) : (Entry.mk k btHashmapTombstone).cell = .dead := by
  simp [Entry.cell, btHashmapTombstone]

/-! ### The invariant -/

/-- **The invariant**: the capacity is a power of two that fits the memory, the table is chained,
`count` is the number of live slots, every used slot is counted as live or erased, and the load test
has been passed before the last put. -/
structure WellFormed (m : Map) : Prop where
  pow : ∃ c, 3 ≤ c ∧ m.capacity = 2 ^ c
  fits : m.capacity * 16 < 2 ^ 64
  chained : Chained UInt64.toNat m.capacity (cells m)
  count : m.count = Counting.count Cell.isFull m.capacity (cells m)
  used : Counting.count Cell.isUsed m.capacity (cells m) ≤ m.count + m.tombstones
  load : (m.count + m.tombstones) * 4 < m.capacity * 3 + 4

/-- The capacity is a power of two that fits the memory. -/
structure Sized (m : Map) : Prop where
  pow : ∃ c, 3 ≤ c ∧ m.capacity = 2 ^ c
  fits : m.capacity * 16 < 2 ^ 64

theorem WellFormed.sized {m : Map} (h : WellFormed m) : Sized m := ⟨h.pow, h.fits⟩

theorem Sized.eight_le {m : Map} (h : Sized m) : 8 ≤ m.capacity := by
  obtain ⟨c, hc, hcap⟩ := h.pow
  rw [hcap]
  exact le_trans (by decide : 8 ≤ 2 ^ 3) (Nat.pow_le_pow_right (by decide) hc)

theorem eight_le_capacity {m : Map} (h : WellFormed m) : 8 ≤ m.capacity := h.sized.eight_le

/-- The probe sequence goes round the table from the key's home. -/
theorem hmProbe_eq {cap c : ℕ} (hc : c ≤ 64) (hcap : cap = 2 ^ c) (key : UInt64) (i : ℕ) :
    hmProbe key i cap = place UInt64.toNat cap key i := by
  rw [hmProbe, place, hcap, Nat.and_two_pow_sub_one_eq_mod]
  exact Nat.mod_mod_of_dvd _ (Nat.pow_dvd_pow 2 hc)

theorem Sized.probe_eq {m : Map} (h : Sized m) (key : UInt64) (i : ℕ) :
    hmProbe key i m.capacity = place UInt64.toNat m.capacity key i := by
  obtain ⟨c, hc, hcap⟩ := h.pow
  refine hmProbe_eq ?_ hcap key i
  by_contra hlt
  have hfits := h.fits
  rw [hcap] at hfits
  have : 2 ^ 64 ≤ 2 ^ c := Nat.pow_le_pow_right (by decide) (by omega)
  omega

theorem WellFormed.probe_eq {m : Map} (h : WellFormed m) (key : UInt64) (i : ℕ) :
    hmProbe key i m.capacity = place UInt64.toNat m.capacity key i := h.sized.probe_eq key i

theorem Sized.place_lt {m : Map} (h : Sized m) (key : UInt64) (d : ℕ) :
    place UInt64.toNat m.capacity key d < m.capacity := by
  have := h.eight_le
  exact Probing.place_lt (by omega) key d

/-- A fresh table has no bindings. -/
theorem wellFormed_zeroed {cap c : ℕ} (hc : 3 ≤ c) (hcap : cap = 2 ^ c) (hfits : cap * 16 < 2 ^ 64)
    (r : ℕ) : WellFormed ⟨zeroed, cap, 0, 0, r⟩ := by
  have hcells : cells ⟨zeroed, cap, 0, 0, r⟩ = fun _ => .empty := rfl
  refine ⟨⟨c, hc, hcap⟩, hfits, chained_of_no_binding fun _ _ => rfl, ?_, ?_, ?_⟩
  · simp [Counting.count, hcells, Cell.isFull]
  · simp [Counting.count, hcells, Cell.isUsed]
  · change 0 * 4 < cap * 3 + 4
    omega

theorem not_bound_zeroed (cap r : ℕ) (k v : UInt64) : ¬ Bound ⟨zeroed, cap, 0, 0, r⟩ k v := by
  rintro ⟨i, -, hi⟩
  cases hi

/-- The rounding loop goes through the powers of two, and ends at one that is large enough. -/
theorem roundUp_eq_some {fuel cap capacity r : ℕ}
    (hcap : cap = 0 ∨ ∃ c, 3 ≤ c ∧ c < 64 ∧ cap = 2 ^ c) (h : roundUp fuel cap capacity = some r) :
    capacity ≤ r ∧ (r = 0 ∨ ∃ c, 3 ≤ c ∧ r = 2 ^ c) := by
  induction fuel generalizing cap with
  | zero => cases h
  | succ fuel ih =>
      rw [roundUp] at h
      split at h
      · refine ih ?_ h
        rcases hcap with rfl | ⟨c, hc, hlt, rfl⟩
        · exact Or.inl rfl
        · rw [← Nat.pow_succ]
          rcases Nat.lt_or_ge (c + 1) 64 with hlt' | hge
          · exact Or.inr ⟨c + 1, by omega, hlt',
              Nat.mod_eq_of_lt (Nat.pow_lt_pow_right (by decide) hlt')⟩
          · obtain rfl : c = 63 := by omega
            exact Or.inl (by decide)
      · next hge =>
          obtain rfl : cap = r := Option.some.inj h
          refine ⟨by omega, ?_⟩
          rcases hcap with h0 | ⟨c, hc, -, hpow⟩
          · exact Or.inl h0
          · exact Or.inr ⟨c, hc, hpow⟩

/-- **A map that `bt_hashmap_init` has set up is well formed and holds nothing.** -/
theorem btHashmapInit_wellFormed {callocOk : Bool} {capacity : ℕ} {m : Map}
    (h : btHashmapInit callocOk capacity = some (some m)) :
    WellFormed m ∧ ∀ k v, ¬ Bound m k v := by
  unfold btHashmapInit at h
  split at h
  · cases h
  · next hlow =>
      split at h
      · cases h
      · next cap hround =>
          split at h
          · next hok =>
              obtain rfl : (⟨zeroed, cap, 0, 0, 0⟩ : Map) = m := Option.some.inj (Option.some.inj h)
              simp only [Bool.and_eq_true, callocFits, decide_eq_true_eq] at hok
              obtain ⟨hge, hpow⟩ := roundUp_eq_some (Or.inr ⟨3, le_rfl, by decide, rfl⟩) hround
              rcases hpow with h0 | ⟨c, hc, hcap⟩
              · omega
              · exact ⟨wellFormed_zeroed hc hcap hok.2 0, not_bound_zeroed cap 0⟩
          · cases h

/-! ### What the searches find -/

section Search

variable {m : Map} (h : WellFormed m)

include h

theorem WellFormed.place_lt (key : UInt64) (d : ℕ) :
    place UInt64.toNat m.capacity key d < m.capacity := h.sized.place_lt key d

omit h in
/-- The body of the search loop of get and remove, on the cells. -/
theorem Sized.findSlot_eq (hsized : Sized m) (key : UInt64) : findSlot m key =
    (firstSome m.capacity fun d =>
      match cells m (place UInt64.toNat m.capacity key d) with
      | .empty => some none
      | .dead => none
      | .full k _ =>
          if k = key then some (some (place UInt64.toNat m.capacity key d)) else none).join := by
  unfold findSlot
  congr 2
  funext i
  rw [hsized.probe_eq]
  generalize place UInt64.toNat m.capacity key i = idx
  change _ = match (m.entries idx).cell with
    | .empty => some none
    | .dead => none
    | .full k _ => if k = key then some (some idx) else none
  cases hc : (m.entries idx).cell with
  | empty => simp [cell_eq_empty_iff.1 hc]
  | dead => simp [cell_eq_dead_iff.1 hc, btHashmapTombstone]
  | full k v =>
      obtain ⟨hlive, rfl, rfl⟩ := cell_eq_full_iff.1 hc
      simp only [Entry.isLive, ne_eq, decide_not, Bool.and_eq_true, Bool.not_eq_true',
        decide_eq_false_iff_not] at hlive
      simp [hlive.1, hlive.2]

omit h in
/-- What the search finds is live and holds the key. -/
theorem Sized.full_of_findSlot (hsized : Sized m) {key : UInt64} {idx : ℕ}
    (hfind : findSlot m key = some idx) : idx < m.capacity ∧ ∃ v, cells m idx = .full key v := by
  rw [hsized.findSlot_eq, Option.join_eq_some_iff, firstSome_eq_some_iff] at hfind
  obtain ⟨d, hd, hbody, -⟩ := hfind
  cases hc : cells m (place UInt64.toNat m.capacity key d) with
  | empty => simp [hc] at hbody
  | dead => simp [hc] at hbody
  | full k v =>
      simp only [hc, Option.ite_none_right_eq_some, Option.some.injEq] at hbody
      obtain ⟨rfl, rfl⟩ := hbody
      exact ⟨hsized.place_lt k d, v, hc⟩

/-- **The search finds the slot of a bound key.** -/
theorem WellFormed.findSlot_eq_some_iff {key : UInt64} {idx : ℕ} :
    findSlot m key = some idx ↔ idx < m.capacity ∧ ∃ v, cells m idx = .full key v := by
  refine ⟨h.sized.full_of_findSlot, ?_⟩
  rw [h.sized.findSlot_eq, Option.join_eq_some_iff, firstSome_eq_some_iff]
  rintro ⟨hidx, v, hv⟩
  obtain ⟨d, hd, rfl⟩ := exists_place UInt64.toNat hidx key
  refine ⟨d, hd, by simp [hv], fun e he => ?_⟩
  -- on the way there is neither an empty slot nor another binding of the key
  cases hc : cells m (place UInt64.toNat m.capacity key e) with
  | empty => exact absurd hc (h.chained.chain hd hv e he)
  | dead => rfl
  | full k w =>
      have hne : k ≠ key := by
        rintro rfl
        have := place_inj (by omega) hd (h.chained.unique (h.place_lt k e) hidx hc hv)
        omega
      simp [hne]

/-- **The search finds nothing exactly when the key is not bound.** -/
theorem WellFormed.findSlot_eq_none_iff {key : UInt64} :
    findSlot m key = none ↔ ∀ v, ¬ Bound m key v := by
  constructor
  · rintro hnone v ⟨idx, hidx, hv⟩
    rw [h.findSlot_eq_some_iff.2 ⟨hidx, v, hv⟩] at hnone
    cases hnone
  · intro hun
    cases hf : findSlot m key with
    | none => rfl
    | some idx =>
        obtain ⟨hidx, v, hv⟩ := h.findSlot_eq_some_iff.1 hf
        exact absurd ⟨idx, hidx, hv⟩ (hun v)

/-- `bt_hashmap_get` returns the value a key is bound to. -/
theorem WellFormed.get_of_bound {key v : UInt64} (hv : Bound m key v) : btHashmapGet m key = v := by
  obtain ⟨idx, hidx, hc⟩ := hv
  rw [btHashmapGet, h.findSlot_eq_some_iff.2 ⟨hidx, v, hc⟩]
  exact (cell_eq_full_iff.1 hc).2.2

/-- `bt_hashmap_get` returns the null pointer for a key that is not bound. -/
theorem WellFormed.get_of_not_bound {key : UInt64} (hun : ∀ v, ¬ Bound m key v) :
    btHashmapGet m key = 0 := by
  rw [btHashmapGet, h.findSlot_eq_none_iff.2 hun]

omit h in
/-- The body of the search loop of put, on the cells. -/
theorem Sized.putSlot_eq (hsized : Sized m) (key : UInt64) : putSlot m key =
    firstSome m.capacity fun d =>
      match cells m (place UInt64.toNat m.capacity key d) with
      | .empty => some (some (place UInt64.toNat m.capacity key d))
      | .dead => some (some (place UInt64.toNat m.capacity key d))
      | .full k _ => if k = key then some none else none := by
  unfold putSlot
  congr 1
  funext i
  rw [hsized.probe_eq]
  generalize place UInt64.toNat m.capacity key i = idx
  change _ = match (m.entries idx).cell with
    | .empty => some (some idx)
    | .dead => some (some idx)
    | .full k _ => if k = key then some none else none
  cases hc : (m.entries idx).cell with
  | empty => simp [cell_eq_empty_iff.1 hc]
  | dead => simp [cell_eq_dead_iff.1 hc]
  | full k v =>
      obtain ⟨hlive, rfl, rfl⟩ := cell_eq_full_iff.1 hc
      simp only [Entry.isLive, ne_eq, decide_not, Bool.and_eq_true, Bool.not_eq_true',
        decide_eq_false_iff_not] at hlive
      simp [hlive.1, hlive.2]

/-- The first `d` slots on the way of the key hold other keys. -/
def Passed (m : Map) (key : UInt64) (d : ℕ) : Prop :=
  ∀ e < d, ∃ k v, cells m (place UInt64.toNat m.capacity key e) = .full k v ∧ k ≠ key

omit h in
/-- **What the search of put finds** in a table with an empty slot: the first slot without a
binding, or a binding of the key before that. -/
theorem Sized.putSlot_cases (hsized : Sized m)
    (hroom : Counting.count Cell.isUsed m.capacity (cells m) < m.capacity) (key : UInt64) :
    ∃ d < m.capacity, Passed m key d ∧
      ((putSlot m key = some (some (place UInt64.toNat m.capacity key d)) ∧
          (cells m (place UInt64.toNat m.capacity key d)).isFull = false) ∨
        (putSlot m key = some none ∧
          ∃ v, cells m (place UInt64.toNat m.capacity key d) = .full key v)) := by
  cases hput : putSlot m key with
  | none =>
      -- the search would have stopped at the empty slot
      obtain ⟨d, hd, hempty⟩ := exists_empty UInt64.toNat hroom key
      rw [hsized.putSlot_eq, firstSome_eq_none_iff] at hput
      have := hput d hd
      simp [hempty] at this
  | some r =>
      rw [hsized.putSlot_eq, firstSome_eq_some_iff] at hput
      obtain ⟨d, hd, hbody, hbefore⟩ := hput
      refine ⟨d, hd, fun e he => ?_, ?_⟩
      · have hnone := hbefore e he
        cases hc : cells m (place UInt64.toNat m.capacity key e) with
        | empty => simp [hc] at hnone
        | dead => simp [hc] at hnone
        | full k v =>
            refine ⟨k, v, rfl, ?_⟩
            rintro rfl
            simp [hc] at hnone
      · cases hc : cells m (place UInt64.toNat m.capacity key d) with
        | empty =>
            simp only [hc, Option.some.injEq] at hbody
            exact Or.inl ⟨by rw [hbody], rfl⟩
        | dead =>
            simp only [hc, Option.some.injEq] at hbody
            exact Or.inl ⟨by rw [hbody], rfl⟩
        | full k v =>
            simp only [hc, Option.ite_none_right_eq_some, Option.some.injEq] at hbody
            obtain ⟨rfl, rfl⟩ := hbody
            exact Or.inr ⟨rfl, v, rfl⟩

theorem WellFormed.putSlot_cases
    (hroom : Counting.count Cell.isUsed m.capacity (cells m) < m.capacity) (key : UInt64) :
    ∃ d < m.capacity, Passed m key d ∧
      ((putSlot m key = some (some (place UInt64.toNat m.capacity key d)) ∧
          (cells m (place UInt64.toNat m.capacity key d)).isFull = false) ∨
        (putSlot m key = some none ∧
          ∃ v, cells m (place UInt64.toNat m.capacity key d) = .full key v)) :=
  h.sized.putSlot_cases hroom key

end Search

/-! ### Removal -/

theorem sizeDec_eq {n : ℕ} (hpos : 0 < n) (hlt : n < 2 ^ 64) : sizeDec n = n - 1 := by
  rw [sizeDec, show n + (2 ^ 64 - 1) = n - 1 + 2 ^ 64 by omega, Nat.add_mod_right]
  exact Nat.mod_eq_of_lt (by omega)

theorem WellFormed.count_lt {m : Map} (h : WellFormed m) : m.count < 2 ^ 64 := by
  have hle := Counting.count_le (n := m.capacity) (t := cells m) Cell.isFull
  have := h.fits
  rw [← h.count] at hle
  omega

theorem cells_erase (m : Map) (idx : ℕ) :
    cells (erase m idx) = Function.update (cells m) idx .dead := by
  rw [← tombstone_cell (m.entries idx).key, ← cells_update]
  rfl

/-- **Removing a bound key** returns `0` and unbinds exactly that key. -/
theorem WellFormed.remove_of_bound {m : Map} (h : WellFormed m) {key v : UInt64}
    (hv : Bound m key v) : ∃ m', btHashmapRemove m key = (m', 0) ∧ WellFormed m' ∧
      ∀ k w, Bound m' k w ↔ k ≠ key ∧ Bound m k w := by
  obtain ⟨idx, hidx, hc⟩ := hv
  have hfull := Counting.count_update (t := cells m) Cell.isFull hidx .dead
  have hused := Counting.count_update (t := cells m) Cell.isUsed hidx .dead
  simp only [hc, Cell.isFull, if_true, Bool.false_eq_true, if_false] at hfull
  simp only [hc, Cell.isUsed, if_true] at hused
  have hcount := h.count
  have hdec : sizeDec m.count = m.count - 1 := sizeDec_eq (by omega) h.count_lt
  have hload := h.load
  have hle := h.used
  refine ⟨erase m idx, by rw [btHashmapRemove, h.findSlot_eq_some_iff.2 ⟨hidx, v, hc⟩],
    ⟨h.pow, h.fits, ?_, ?_, ?_, ?_⟩, fun k w => ?_⟩
  · rw [cells_erase]
    exact h.chained.kill idx
  · rw [cells_erase]
    change sizeDec m.count = Counting.count Cell.isFull m.capacity _
    omega
  · rw [cells_erase]
    change Counting.count Cell.isUsed m.capacity _ ≤ sizeDec m.count + (m.tombstones + 1)
    omega
  · change (sizeDec m.count + (m.tombstones + 1)) * 4 < m.capacity * 3 + 4
    omega
  · rw [Bound, cells_erase]
    exact h.chained.binds_kill_iff hidx hc

/-- Removing a key that is not bound returns `-1` and changes nothing. -/
theorem WellFormed.remove_of_not_bound {m : Map} (h : WellFormed m) {key : UInt64}
    (hun : ∀ v, ¬ Bound m key v) : btHashmapRemove m key = (m, -1) := by
  rw [btHashmapRemove, h.findSlot_eq_none_iff.2 hun]

/-- Clearing unbinds every key. -/
theorem WellFormed.clear {m : Map} (h : WellFormed m) :
    WellFormed (btHashmapClear m) ∧ ∀ k v, ¬ Bound (btHashmapClear m) k v := by
  obtain ⟨c, hc, hcap⟩ := h.pow
  exact ⟨wellFormed_zeroed hc hcap h.fits m.resizes, not_bound_zeroed m.capacity m.resizes⟩

/-! ### Insertion -/

theorem overloaded_eq_false_iff {m : Map} :
    overloaded m = false ↔ (m.count + m.tombstones) * 4 < m.capacity * 3 := by
  rw [overloaded, decide_eq_false_iff_not, not_le]
  rfl

/-- The load test leaves an empty slot. -/
theorem WellFormed.room {m : Map} (h : WellFormed m) (hload : overloaded m = false) :
    Counting.count Cell.isUsed m.capacity (cells m) < m.capacity := by
  have hused := h.used
  rw [overloaded_eq_false_iff] at hload
  omega

/-- No slot is erased. -/
def Clean (m : Map) : Prop := ∀ i < m.capacity, cells m i ≠ .dead

/-- `m'` is `m` with one more binding. -/
structure Inserted (m : Map) (key : UInt64) (value : UInt64) (m' : Map) : Prop where
  wellFormed : WellFormed m'
  bound : ∀ k w, Bound m' k w ↔ k = key ∧ w = value ∨ k ≠ key ∧ Bound m k w
  count : m'.count = m.count + 1
  tombstones : m'.tombstones = m.tombstones
  capacity : m'.capacity = m.capacity
  resizes : m'.resizes = m.resizes
  clean : Clean m → Clean m'

theorem store_value (m : Map) (idx : ℕ) (key : UInt64) (v : Value) :
    store m idx key v.bits = { m with
      entries := Function.update m.entries idx ⟨key, v.bits⟩
      count := m.count + 1 } := by
  simp [store, v.ne_tombstone]

theorem cells_store (m : Map) (idx : ℕ) (key : UInt64) (v : Value) :
    cells (store m idx key v.bits) = Function.update (cells m) idx (.full key v.bits) := by
  rw [store_value, ← value_cell, ← cells_update]
  rfl

/-- Storing a binding of an unbound key in the slot that the search has found. -/
theorem WellFormed.store {m : Map} (h : WellFormed m) (hload : overloaded m = false) {key : UInt64}
    {d : ℕ} (hd : d < m.capacity) (hpassed : Passed m key d)
    (hfree : (cells m (place UInt64.toNat m.capacity key d)).isFull = false)
    (hun : ∀ v, ¬ Bound m key v) (v : Value) :
    Inserted m key v.bits (Hashmap.store m (place UInt64.toNat m.capacity key d) key v.bits) := by
  have hidx := h.place_lt key d
  have hcells := cells_store m (place UInt64.toNat m.capacity key d) key v
  have hfull := Counting.count_update (t := cells m) Cell.isFull hidx (.full key v.bits)
  have hused := Counting.count_update (t := cells m) Cell.isUsed hidx (.full key v.bits)
  rw [hfree] at hfull
  simp only [Cell.isFull, if_true, Bool.false_eq_true, if_false] at hfull
  rw [if_pos (by rfl : Cell.isUsed (.full key v.bits) = true)] at hused
  have hcount := h.count
  have hle := h.used
  have hlt := overloaded_eq_false_iff.1 hload
  have hway : ∀ e < d, cells m (place UInt64.toNat m.capacity key e) ≠ .empty := by
    intro e he hempty
    obtain ⟨k, w, hc, -⟩ := hpassed e he
    rw [hempty] at hc
    cases hc
  rw [store_value] at hcells ⊢
  refine ⟨⟨h.pow, h.fits, ?_, ?_, ?_, ?_⟩, fun k w => ?_, rfl, rfl, rfl, rfl, fun hclean i hi => ?_⟩
  · rw [hcells]
    exact h.chained.put hd hway hun v.bits
  · rw [hcells]
    change m.count + 1 = Counting.count Cell.isFull m.capacity _
    omega
  · rw [hcells]
    change Counting.count Cell.isUsed m.capacity _ ≤ m.count + 1 + m.tombstones
    split at hused <;> omega
  · change (m.count + 1 + m.tombstones) * 4 < m.capacity * 3 + 4
    omega
  · rw [Bound, hcells]
    exact binds_put_iff hidx hfree hun
  · rw [hcells]
    by_cases hip : i = place UInt64.toNat m.capacity key d
    · rw [hip, Function.update_self]
      intro hc
      cases hc
    · rw [Function.update_of_ne hip]
      exact hclean i hi

/-- **Inserting an unbound key** into a map with room returns `0` and binds exactly that key. -/
theorem WellFormed.insert {m : Map} (h : WellFormed m) (hload : overloaded m = false)
    {key : UInt64} (hun : ∀ v, ¬ Bound m key v) (v : Value) :
    ∃ m', Hashmap.insert m key v.bits = (m', 0) ∧ Inserted m key v.bits m' := by
  obtain ⟨d, hd, hpassed, ⟨hput, hfree⟩ | ⟨-, w, hw⟩⟩ := h.putSlot_cases (h.room hload) key
  · exact ⟨_, by rw [Hashmap.insert, hput], h.store hload hd hpassed hfree hun v⟩
  · exact absurd ⟨_, h.place_lt key d, hw⟩ (hun w)

/-! ### Resize -/

theorem exists_value {e : Entry} (h : e.isLive = true) : ∃ v : Value, v.bits = e.value := by
  simp only [Entry.isLive, Bool.and_eq_true, decide_eq_true_eq] at h
  exact ⟨⟨e.value, h.1, h.2⟩, rfl⟩

/-- The new table after the first `n` slots of the old one: it holds their bindings. -/
structure Rehashed (old : ℕ → Entry) (n newCap resizes : ℕ) (m : Map) : Prop where
  wellFormed : WellFormed m
  capacity : m.capacity = newCap
  resizes_eq : m.resizes = resizes
  tombstones : m.tombstones = 0
  count : m.count = Counting.count Cell.isFull n fun i => (old i).cell
  bound : ∀ k v, Bound m k v ↔ Binds n (fun i => (old i).cell) k v
  clean : Clean m

/-- One slot more. -/
theorem binds_succ_iff {t : ℕ → Cell UInt64 UInt64} {n : ℕ} {k v : UInt64} :
    Binds (n + 1) t k v ↔ t n = .full k v ∨ Binds n t k v := by
  constructor
  · rintro ⟨i, hi, hti⟩
    rcases Nat.lt_succ_iff_lt_or_eq.1 hi with hlt | rfl
    · exact Or.inr ⟨i, hlt, hti⟩
    · exact Or.inl hti
  · rintro (htn | ⟨i, hi, hti⟩)
    · exact ⟨n, Nat.lt_succ_self n, htn⟩
    · exact ⟨i, Nat.lt_succ_of_lt hi, hti⟩

/-- A put into a table with room calls no resize. -/
theorem put_of_not_overloaded {callocOk : ℕ → Bool} {depth : ℕ} {m : Map} {key value : UInt64}
    (hvalue : value ≠ 0) (hload : overloaded m = false) :
    btHashmapPut callocOk (depth + 1) m key value = some (Hashmap.insert m key value) := by
  rw [btHashmapPut, if_neg hvalue, hload]
  simp

/-- Before the first slot of the old table the new one is empty. -/
theorem rehashed_zero {m : Map} (h : WellFormed m) (hfits : m.capacity * 2 * 16 < 2 ^ 64) (r : ℕ) :
    Rehashed m.entries 0 (m.capacity * 2) r ⟨zeroed, m.capacity * 2, 0, 0, r⟩ := by
  obtain ⟨c, hc, hcap⟩ := h.pow
  have hnew : m.capacity * 2 = 2 ^ (c + 1) := by rw [hcap, Nat.pow_succ]
  refine ⟨wellFormed_zeroed (by omega) hnew hfits r, rfl, rfl, rfl, ?_, ?_, ?_⟩
  · simp [Counting.count]
  · intro k v
    refine iff_of_false (not_bound_zeroed _ _ k v) ?_
    rintro ⟨i, hi, -⟩
    omega
  · intro i _ hdead
    cases hdead

/-- A slot that is not live is passed over. -/
theorem Rehashed.skip {old : ℕ → Entry} {n newCap r : ℕ} {m' : Map}
    (hm' : Rehashed old n newCap r m') (hlive : (old n).isLive = false) :
    Rehashed old (n + 1) newCap r m' := by
  have hnot : ((old n).cell).isFull = false := by rw [cell_isFull, hlive]
  refine { hm' with count := ?_, bound := fun k v => ?_ }
  · rw [Counting.count_succ, hnot, hm'.count]
    rfl
  · rw [hm'.bound, binds_succ_iff]
    refine ⟨Or.inr, ?_⟩
    rintro (hfull | hb)
    · rw [hfull] at hnot
      cases hnot
    · exact hb

/-- A live slot has its key in no slot before it, because the old table binds a key once. -/
theorem Rehashed.not_bound {m m' : Map} (h : WellFormed m) {n newCap r : ℕ} (hn : n < m.capacity)
    (hm' : Rehashed m.entries n newCap r m') (hlive : (m.entries n).isLive = true) (w : UInt64) :
    ¬ Bound m' (m.entries n).key w := by
  intro hw
  obtain ⟨i, hi, hti⟩ := (hm'.bound _ w).1 hw
  have := h.chained.unique (by omega) hn hti (cell_eq_full_iff.2 ⟨hlive, rfl, rfl⟩)
  omega

/-- The new table has room for all the bindings of the old one. -/
theorem Rehashed.not_overloaded {m m' : Map} (h : WellFormed m) {n r : ℕ} (hn : n ≤ m.capacity)
    (hm' : Rehashed m.entries n (m.capacity * 2) r m') : overloaded m' = false := by
  have hmono := Counting.count_mono (t := cells m) Cell.isFull hn
  have hcount : m'.count ≤ m.count := by
    rw [hm'.count, h.count]
    exact hmono
  have hload := h.load
  have height := eight_le_capacity h
  rw [overloaded_eq_false_iff, hm'.tombstones, hm'.capacity]
  omega

/-- A live slot is put into the new table, without a further resize. -/
theorem Rehashed.put (callocOk : ℕ → Bool) (depth : ℕ) {m m' : Map} (h : WellFormed m) {n r : ℕ}
    (hn : n < m.capacity) (hm' : Rehashed m.entries n (m.capacity * 2) r m')
    (hlive : (m.entries n).isLive = true) :
    ∃ m'', btHashmapPut callocOk (depth + 1) m' (m.entries n).key (m.entries n).value
        = some (m'', 0) ∧ Rehashed m.entries (n + 1) (m.capacity * 2) r m'' := by
  have hcell : (m.entries n).cell = .full (m.entries n).key (m.entries n).value :=
    cell_eq_full_iff.2 ⟨hlive, rfl, rfl⟩
  obtain ⟨v, hv⟩ := exists_value hlive
  have hun := hm'.not_bound h hn hlive
  have hroom := hm'.not_overloaded h hn.le
  obtain ⟨m'', hins, hm''⟩ := hm'.wellFormed.insert hroom hun v
  refine ⟨m'', ?_, hm''.wellFormed, hm''.capacity.trans hm'.capacity,
    hm''.resizes.trans hm'.resizes_eq, hm''.tombstones.trans hm'.tombstones, ?_, fun k w => ?_,
    hm''.clean hm'.clean⟩
  · rw [← hv, put_of_not_overloaded v.ne_null hroom, hins]
  · rw [Counting.count_succ, cell_isFull, hlive, hm''.count, hm'.count]
    rfl
  · rw [hm''.bound, hm'.bound, binds_succ_iff, hcell, hv]
    constructor
    · rintro (⟨rfl, rfl⟩ | ⟨-, hb⟩)
      · exact Or.inl rfl
      · exact Or.inr hb
    · rintro (hfull | hb)
      · cases hfull
        exact Or.inl ⟨rfl, rfl⟩
      · refine Or.inr ⟨?_, hb⟩
        rintro rfl
        exact hun w ((hm'.bound _ w).2 hb)

/-- **The loop of the resize** puts the bindings of the old slots into the new table, and none of
these puts resizes again. -/
theorem rehash_rehashed (callocOk : ℕ → Bool) (depth : ℕ) {m : Map} (h : WellFormed m)
    (hfits : m.capacity * 2 * 16 < 2 ^ 64) (r : ℕ) :
    ∀ n ≤ m.capacity, ∃ m', rehash (btHashmapPut callocOk (depth + 1)) m.entries n
      ⟨zeroed, m.capacity * 2, 0, 0, r⟩ = some m' ∧ Rehashed m.entries n (m.capacity * 2) r m' := by
  intro n
  induction n with
  | zero =>
      intro _
      exact ⟨_, rfl, rehashed_zero h hfits r⟩
  | succ n ih =>
      intro hn
      obtain ⟨m', hrun, hm'⟩ := ih (by omega)
      rw [rehash, hrun]
      cases hlive : (m.entries n).isLive with
      | false => exact ⟨m', by simp, hm'.skip hlive⟩
      | true =>
          obtain ⟨m'', hput, hm''⟩ := Rehashed.put callocOk depth h hn hm' hlive
          exact ⟨m'', by simp [hput], hm''⟩

/-- A map with room that holds the bindings of `m`: the map itself, or the map after a resize, which
leaves no slot erased. -/
structure Ready (m m₀ : Map) : Prop where
  wellFormed : WellFormed m₀
  room : overloaded m₀ = false
  bound : ∀ k v, Bound m₀ k v ↔ Bound m k v
  resizes : m₀.resizes ≤ m.resizes + 1
  same_or_clean : m₀ = m ∧ overloaded m = false ∨ overloaded m = true ∧ Clean m₀

/-- **A resize** that gets its memory keeps the bindings and makes room. -/
theorem WellFormed.resize {m : Map} (h : WellFormed m) {callocOk : ℕ → Bool} (depth : ℕ)
    (hload : overloaded m = true)
    (hok : (callocOk m.resizes && callocFits (m.capacity * 2)) = true) :
    ∃ m₀, hmResize callocOk (btHashmapPut callocOk (depth + 1)) m (m.capacity * 2) = some (m₀, 0) ∧
      Ready m m₀ := by
  have hfits : m.capacity * 2 * 16 < 2 ^ 64 := by
    simp only [Bool.and_eq_true, callocFits, decide_eq_true_eq] at hok
    exact hok.2
  obtain ⟨m₀, hrun, hm₀⟩ := rehash_rehashed callocOk depth h hfits (m.resizes + 1)
    m.capacity le_rfl
  refine ⟨m₀, ?_, hm₀.wellFormed, ?_, fun k v => hm₀.bound k v, hm₀.resizes_eq.le,
    Or.inr ⟨hload, hm₀.clean⟩⟩
  · rw [hmResize, if_pos hok, hrun]
    rfl
  · have hcount : m₀.count = m.count := by
      rw [hm₀.count, h.count]
      rfl
    have hlow := h.load
    have height := eight_le_capacity h
    rw [overloaded_eq_false_iff, hm₀.tombstones, hm₀.capacity, hcount]
    omega

/-- **A put runs out of memory and changes nothing, or it inserts into a map with room that holds
the same bindings.** -/
theorem WellFormed.put_cases {m : Map} (h : WellFormed m) (callocOk : ℕ → Bool) (depth : ℕ)
    (key : UInt64) (v : Value) :
    (resizeFails callocOk m = true ∧ btHashmapPut callocOk (depth + 2) m key v.bits =
        some ({ m with resizes := m.resizes + 1 }, -1)) ∨
      (resizeFails callocOk m = false ∧ ∃ m₀, Ready m m₀ ∧
        btHashmapPut callocOk (depth + 2) m key v.bits = some (Hashmap.insert m₀ key v.bits)) := by
  cases hload : overloaded m with
  | false =>
      refine Or.inr ⟨by simp [resizeFails, hload], m, ⟨h, hload, fun k v => Iff.rfl, by omega,
        Or.inl ⟨rfl, hload⟩⟩, put_of_not_overloaded v.ne_null hload⟩
  | true =>
      cases hok : (callocOk m.resizes && callocFits (m.capacity * 2)) with
      | false =>
          refine Or.inl ⟨by simp [resizeFails, hload, hok], ?_⟩
          simp [btHashmapPut, v.ne_null, hload, hmResize, hok]
      | true =>
          obtain ⟨m₀, hres, hm₀⟩ := h.resize depth hload hok
          refine Or.inr ⟨by simp [resizeFails, hload, hok], m₀, hm₀, ?_⟩
          rw [btHashmapPut, if_neg v.ne_null, hload, hres]
          simp

end Hashmap
