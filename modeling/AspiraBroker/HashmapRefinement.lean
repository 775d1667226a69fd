/-
**The hash map is a finite partial map.**

As long as no key is put that is already bound, the map behaves as a finite partial map from keys to
pointers: through tombstones, reuse of erased slots, wrapping probe sequences and resizes.  The one
thing it can do besides is run out of memory in a resize, and then the put returns `-1` and changes
nothing.  No put makes more than one resize.

Main definitions:

* `Hashmap.Bindings` — the specification's state, a finite partial map;
* `Hashmap.Admissible`, `Hashmap.Answers` — the specification;
* `Hashmap.Represents` — the map holds the bindings.

Main results:

* `Hashmap.step_simulates` — every call keeps the bindings in step with the specification;
* `Hashmap.hashmap_refines_finmap` — **the hash map refines the finite partial map**.
-/

import AspiraBroker.HashmapTable
import AspiraBroker.Refinement
import Mathlib.Data.Finmap

set_option relaxedAutoImplicit false
set_option autoImplicit false

namespace Hashmap

open Probing Refinement

/-! ### The specification -/

/-- A finite partial map from keys to pointers. -/
abbrev Bindings : Type := Finmap fun _ : UInt64 => UInt64

/-- The calls the specification speaks of: no key is put that is bound. -/
def Admissible (f : Bindings) : Op → Prop
  | .put key _ => key ∉ f
  | _ => True

/-- What a finite partial map answers, and what becomes of it. -/
inductive Answers (f : Bindings) : Op → Result → Bindings → Prop
  | put {key : UInt64} {v : Value} {n : ℕ} : n ≤ 1 →
      Answers f (.put key v) (.put 0 false n) (f.insert key v.bits)
  | putNoMemory {key : UInt64} {v : Value} {n : ℕ} : n ≤ 1 →
      Answers f (.put key v) (.put (-1) true n) f
  | get (key : UInt64) : Answers f (.get key) (.get ((f.lookup key).getD 0)) f
  | removeBound {key : UInt64} : key ∈ f → Answers f (.remove key) (.remove 0) (f.erase key)
  | removeUnbound {key : UInt64} : key ∉ f → Answers f (.remove key) (.remove (-1)) f
  | size : Answers f .size (.size f.keys.card) f
  | clear : Answers f .clear .clear ∅

/-! ### The simulation -/

/-- The map is well formed and holds the bindings. -/
structure Represents (m : Map) (f : Bindings) : Prop where
  wellFormed : WellFormed m
  lookup : ∀ k v, f.lookup k = some v ↔ Bound m k v

namespace Represents

variable {m : Map} {f : Bindings}

theorem mem_iff (h : Represents m f) {k : UInt64} : k ∈ f ↔ ∃ v, Bound m k v := by
  rw [Finmap.mem_iff]
  exact exists_congr fun v => h.lookup k v

theorem not_bound (h : Represents m f) {k : UInt64} (hk : k ∉ f) (v : UInt64) : ¬ Bound m k v :=
  fun hv => hk (h.mem_iff.2 ⟨v, hv⟩)

theorem get (h : Represents m f) (k : UInt64) : btHashmapGet m k = (f.lookup k).getD 0 := by
  cases hk : f.lookup k with
  | none =>
      refine h.wellFormed.get_of_not_bound fun v hv => ?_
      rw [(h.lookup k v).2 hv] at hk
      cases hk
  | some v => exact h.wellFormed.get_of_bound ((h.lookup k v).1 hk)

/-- The live slots and the bound keys correspond to each other. -/
theorem size (h : Represents m f) : btHashmapSize m = f.keys.card := by
  rw [btHashmapSize, h.wellFormed.count, Counting.count]
  refine Finset.card_nbij (fun i => (m.entries i).key) ?_ ?_ ?_
  · intro i hi
    simp only [Finset.mem_coe, Finset.mem_filter, Finset.mem_range] at hi
    rw [Finset.mem_coe, Finmap.mem_keys, h.mem_iff]
    exact ⟨(m.entries i).value, i, hi.1,
      cell_eq_full_iff.2 ⟨by rw [← cell_isFull]; exact hi.2, rfl, rfl⟩⟩
  · intro i hi j hj hij
    simp only [Finset.mem_coe, Finset.mem_filter, Finset.mem_range] at hi hj
    refine h.wellFormed.chained.unique hi.1 hj.1
      (cell_eq_full_iff.2 ⟨by rw [← cell_isFull]; exact hi.2, rfl, rfl⟩)
      (cell_eq_full_iff.2 ⟨by rw [← cell_isFull]; exact hj.2, hij.symm, rfl⟩)
  · intro k hk
    rw [Finset.mem_coe, Finmap.mem_keys, h.mem_iff] at hk
    obtain ⟨v, i, hi, hc⟩ := hk
    refine ⟨i, ?_, (cell_eq_full_iff.1 hc).2.1⟩
    simp only [Finset.mem_coe, Finset.mem_filter, Finset.mem_range]
    exact ⟨hi, by rw [hc]; rfl⟩

/-- A put of an unbound key. -/
theorem put (h : Represents m f) (callocOk : ℕ → Bool) (depth : ℕ) {key : UInt64} (hkey : key ∉ f)
    (v : Value) : ∃ m' r f', step callocOk (depth + 2) m (.put key v) = some (m', r) ∧
      Answers f (.put key v) r f' ∧ Represents m' f' := by
  rcases h.wellFormed.put_cases callocOk depth key v with ⟨hfails, hput⟩ | ⟨hfails, m₀, hm₀, hput⟩
  · refine ⟨{ m with resizes := m.resizes + 1 }, .put (-1) true 1, f, ?_, .putNoMemory le_rfl, ?_⟩
    · rw [step, hput, hfails]
      simp
    · exact ⟨⟨h.wellFormed.pow, h.wellFormed.fits, h.wellFormed.chained, h.wellFormed.count,
        h.wellFormed.used, h.wellFormed.load⟩, h.lookup⟩
  · have hun : ∀ w, ¬ Bound m₀ key w := fun w hw => h.not_bound hkey w ((hm₀.bound key w).1 hw)
    obtain ⟨m', hins, hm'⟩ := hm₀.wellFormed.insert hm₀.room hun v
    refine ⟨m', .put 0 false (m'.resizes - m.resizes), f.insert key v.bits, ?_, .put ?_,
      hm'.wellFormed, fun k w => ?_⟩
    · rw [step, hput, hins, hfails]
      rfl
    · have := hm₀.resizes
      rw [hm'.resizes]
      omega
    · rw [hm'.bound, hm₀.bound, ← h.lookup]
      by_cases hk : k = key
      · rw [hk, Finmap.lookup_insert]
        simp [eq_comm]
      · rw [Finmap.lookup_insert_of_ne f hk]
        simp [hk]

/-- A removal. -/
theorem remove (h : Represents m f) (key : UInt64) : ∃ m' r f',
    btHashmapRemove m key = (m', r) ∧ Answers f (.remove key) (.remove r) f' ∧
      Represents m' f' := by
  by_cases hkey : key ∈ f
  · obtain ⟨v, hv⟩ := h.mem_iff.1 hkey
    obtain ⟨m', hrem, hm', hbound⟩ := h.wellFormed.remove_of_bound hv
    refine ⟨m', 0, f.erase key, hrem, .removeBound hkey, hm', fun k w => ?_⟩
    rw [hbound, ← h.lookup]
    by_cases hk : k = key
    · rw [hk, Finmap.lookup_erase]
      simp
    · rw [Finmap.lookup_erase_ne hk]
      simp [hk]
  · exact ⟨m, -1, f, h.wellFormed.remove_of_not_bound fun v => h.not_bound hkey v,
      .removeUnbound hkey, h⟩

end Represents

/-- **Every call keeps the bindings in step with the specification.** -/
theorem step_simulates (callocOk : ℕ → Bool) (depth : ℕ) (m : Map) (f : Bindings) (op : Op)
    (h : Represents m f) (hop : Admissible f op) :
    ∃ m' r f', step callocOk (depth + 2) m op = some (m', r) ∧ Answers f op r f' ∧
      Represents m' f' := by
  cases op with
  | put key v => exact h.put callocOk depth hop v
  | get key => exact ⟨m, _, f, rfl, by rw [h.get]; exact .get key, h⟩
  | remove key =>
      obtain ⟨m', r, f', hrem, hans, h'⟩ := h.remove key
      exact ⟨m', .remove r, f', by rw [step, hrem], hans, h'⟩
  | size => exact ⟨m, _, f, rfl, by rw [h.size]; exact .size, h⟩
  | clear =>
      obtain ⟨hm', hun⟩ := h.wellFormed.clear
      refine ⟨_, .clear, ∅, rfl, .clear, hm', fun k v => iff_of_false ?_ (hun k v)⟩
      simp

/-- **The hash map refines the finite partial map**: from every `bt_hashmap_init` that returns `0`
and for every sequence of calls in which no key is put that is bound, every call returns, with the
answer of the finite partial map; a put whose resize gets no memory returns `-1` and changes no
binding, and no put makes more than one resize. -/
theorem hashmap_refines_finmap (callocOk : ℕ → Bool) (depth : ℕ) {initOk : Bool} {capacity : ℕ}
    {m : Map} (hinit : btHashmapInit initOk capacity = some (some m)) (ops : List Op) :
    Refines (step callocOk (depth + 2)) Admissible Answers m ∅ ops := by
  obtain ⟨hm, hun⟩ := btHashmapInit_wellFormed hinit
  have hrep : Represents m ∅ := ⟨hm, fun k v => iff_of_false (by simp) (hun k v)⟩
  exact refines_of_simulation (fun m f op => step_simulates callocOk depth m f op) hrep ops

/-- The hypothesis of `Hashmap.hashmap_refines_finmap` holds of the smallest map. -/
theorem hashmap_refines_finmap_eight :
    Refines (step (fun _ => true) 2) Admissible Answers ⟨zeroed, 8, 0, 0, 0⟩ ∅
      [.put 1 ⟨16, by decide, by decide⟩, .remove 1, .put 9 ⟨32, by decide, by decide⟩, .get 9] :=
  hashmap_refines_finmap (fun _ => true) 0
    (by rfl : btHashmapInit true 8 = some (some ⟨zeroed, 8, 0, 0, 0⟩)) _

end Hashmap
