/-
**Duplicate keys in the hash map.**

`bt_hashmap_put` takes the first slot on the way of the key that is empty or erased, and rejects the
key only if it meets it before that.  A key whose entry lies behind an erased slot is therefore put
a second time: two live slots hold it, and a removal brings the older value back.  This module shows
that nothing else can go wrong: the keys stay unique exactly when no such put is made, and then a
put of a present key is rejected without effect and a removed key is gone.

Main definitions:

* `Hashmap.next` — one call, without its result;
* `Hashmap.UniqueKeys` — no two live slots hold the same key;
* `Hashmap.erasedBefore` — the key's entry lies behind an erased slot;
* `Hashmap.PassesNoErased` — no key whose entry lies behind an erased slot is put without a resize;
* `Hashmap.RejectsDuplicate`, `Hashmap.ForgetsRemoved` — what uniqueness is for.

Main results:

* `Hashmap.WellFormed.insert_of_bound`, `Hashmap.WellFormed.insert_duplicates` — a put of a bound
  key, without and with an erased slot before its entry;
* `Hashmap.unique_keys_iff` — **the keys stay unique, and duplicates are rejected, exactly when no
  key is put whose entry lies behind an erased slot**;
* `Hashmap.put_after_remove_duplicates` — two keys with the same home suffice.
-/

import AspiraBroker.HashmapTable
import AspiraBroker.TransitionRuns

set_option relaxedAutoImplicit false
set_option autoImplicit false

namespace Hashmap

open Probing Transition

/-! ### Uniqueness and what it is for -/

/-- One call, without its result. -/
def next (callocOk : ℕ → Bool) (depth : ℕ) (m : Map) (op : Op) : Option Map :=
  (step callocOk depth m op).map Prod.fst

/-- No two live slots hold the same key. -/
def UniqueKeys (m : Map) : Prop :=
  ∀ i j, i < m.capacity → j < m.capacity → (m.entries i).isLive = true →
    (m.entries j).isLive = true → (m.entries i).key = (m.entries j).key → i = j

/-- Some live slot holds the key. -/
def Present (m : Map) (key : UInt64) : Prop :=
  ∃ i < m.capacity, (m.entries i).isLive = true ∧ (m.entries i).key = key

/-- A put of a key that is present returns `-1` and changes no lookup. -/
def RejectsDuplicate (callocOk : ℕ → Bool) (depth : ℕ) (m : Map) : Op → Prop
  | .put key v => Present m key → ∃ m', btHashmapPut callocOk depth m key v.bits = some (m', -1) ∧
      ∀ k, btHashmapGet m' k = btHashmapGet m k
  | _ => True

/-- A key that has been removed is not found any more. -/
def ForgetsRemoved (m : Map) : Op → Prop
  | .remove key => (btHashmapRemove m key).2 = 0 → btHashmapGet (btHashmapRemove m key).1 key = 0
  | _ => True

/-- A live slot holds the key, and an earlier slot on the key's way is erased. -/
def erasedBefore (m : Map) (key : UInt64) : Prop :=
  ∃ d < m.capacity, ∃ e < d, (m.entries (hmProbe key d m.capacity)).isLive = true ∧
    (m.entries (hmProbe key d m.capacity)).key = key ∧
      (m.entries (hmProbe key e m.capacity)).value = btHashmapTombstone

instance (m : Map) (key : UInt64) : Decidable (erasedBefore m key) := by
  unfold erasedBefore
  infer_instance

/-- No key whose entry lies behind an erased slot is put, unless the load test asks for a resize. -/
def PassesNoErased (m : Map) : Op → Prop
  | .put key _ => erasedBefore m key → overloaded m = true
  | _ => True

instance (m : Map) : ∀ op, Decidable (PassesNoErased m op)
  | .put key _ => inferInstanceAs (Decidable (erasedBefore m key → overloaded m = true))
  | .get _ | .remove _ | .size | .clear => isTrue trivial

/-! ### A put of a bound key -/

section Bound

variable {m : Map} (h : WellFormed m)

include h

theorem WellFormed.uniqueKeys : UniqueKeys m := by
  intro i j hi hj hli hlj hkey
  exact h.chained.unique hi hj (cell_eq_full_iff.2 ⟨hli, rfl, rfl⟩)
    (cell_eq_full_iff.2 ⟨hlj, hkey.symm, rfl⟩)

omit h in
theorem present_iff {key : UInt64} : Present m key ↔ ∃ v, Bound m key v := by
  constructor
  · rintro ⟨i, hi, hlive, rfl⟩
    exact ⟨_, i, hi, cell_eq_full_iff.2 ⟨hlive, rfl, rfl⟩⟩
  · rintro ⟨v, i, hi, hc⟩
    obtain ⟨hlive, hkey, -⟩ := cell_eq_full_iff.1 hc
    exact ⟨i, hi, hlive, hkey⟩

theorem WellFormed.erasedBefore_iff {key : UInt64} : erasedBefore m key ↔
    ∃ d < m.capacity, ∃ e < d, ∃ v,
      cells m (place UInt64.toNat m.capacity key d) = .full key v ∧
        cells m (place UInt64.toNat m.capacity key e) = .dead := by
  simp only [erasedBefore, h.probe_eq]
  constructor
  · rintro ⟨d, hd, e, he, hlive, hkey, hdead⟩
    exact ⟨d, hd, e, he, _, cell_eq_full_iff.2 ⟨hlive, hkey, rfl⟩, cell_eq_dead_iff.2 hdead⟩
  · rintro ⟨d, hd, e, he, v, hc, hdead⟩
    obtain ⟨hlive, hkey, -⟩ := cell_eq_full_iff.1 hc
    exact ⟨d, hd, e, he, hlive, hkey, cell_eq_dead_iff.1 hdead⟩

/-- **A bound key is rejected** if no slot before its entry is erased. -/
theorem WellFormed.insert_of_bound (hload : overloaded m = false) {key w : UInt64}
    (hw : Bound m key w) (hno : ¬ erasedBefore m key) (value : UInt64) :
    Hashmap.insert m key value = (m, -1) := by
  obtain ⟨d, hd, hpassed, ⟨-, hfree⟩ | ⟨hput, -⟩⟩ := h.putSlot_cases (h.room hload) key
  · obtain ⟨i, hi, hc⟩ := hw
    obtain ⟨d₀, hd₀, rfl⟩ := exists_place UInt64.toNat hi key
    -- the search has stopped before the entry, at a slot that is not empty
    have hlt : d < d₀ := by
      rcases Nat.lt_trichotomy d d₀ with hlt | rfl | hgt
      · exact hlt
      · rw [hc] at hfree
        cases hfree
      · obtain ⟨k, v, hc', hne⟩ := hpassed d₀ hgt
        rw [hc] at hc'
        cases hc'
        exact absurd rfl hne
    have hdead : cells m (place UInt64.toNat m.capacity key d) = .dead := by
      cases hcell : cells m (place UInt64.toNat m.capacity key d) with
      | empty => exact absurd hcell (h.chained.chain hd₀ hc d hlt)
      | dead => rfl
      | full k v =>
          rw [hcell] at hfree
          cases hfree
    exact absurd (h.erasedBefore_iff.2 ⟨d₀, hd₀, d, hlt, w, hc, hdead⟩) hno
  · rw [Hashmap.insert, hput]

/-- **A bound key behind an erased slot is put a second time.** -/
theorem WellFormed.insert_duplicates (hload : overloaded m = false) {key : UInt64}
    (herased : erasedBefore m key) (v : Value) : ¬ UniqueKeys (Hashmap.insert m key v.bits).1 := by
  obtain ⟨d₀, hd₀, e, he, w, hc, hdead⟩ := h.erasedBefore_iff.1 herased
  obtain ⟨d, hd, hpassed, ⟨hput, hfree⟩ | ⟨-, w', hc'⟩⟩ := h.putSlot_cases (h.room hload) key
  · have hne : place UInt64.toNat m.capacity key d₀ ≠ place UInt64.toNat m.capacity key d := by
      intro heq
      rw [← heq, hc] at hfree
      cases hfree
    rw [Hashmap.insert, hput]
    change ¬ UniqueKeys (Hashmap.store m _ key v.bits)
    rw [store_value]
    intro hunique
    obtain ⟨hlive, hkey, -⟩ := cell_eq_full_iff.1 hc
    refine hne (hunique _ _ (h.place_lt key d₀) (h.place_lt key d) ?_ ?_ ?_)
    · simp [Function.update_of_ne hne, hlive]
    · simp [Entry.isLive, v.ne_null, v.ne_tombstone]
    · simp [Function.update_of_ne hne, hkey]
  · -- the search cannot have passed the erased slot
    have heq := place_inj hd₀ hd (h.chained.unique (h.place_lt key d₀) (h.place_lt key d) hc hc')
    obtain ⟨k, w'', hfull, -⟩ := hpassed e (by omega)
    rw [hdead] at hfull
    cases hfull

end Bound

/-! ### One call -/

section Call

variable {callocOk : ℕ → Bool} {depth : ℕ} {m m' : Map}

theorem not_erasedBefore_of_clean (h : WellFormed m) (hclean : Clean m) (key : UInt64) :
    ¬ erasedBefore m key := by
  intro herased
  obtain ⟨d, hd, e, he, v, -, hdead⟩ := h.erasedBefore_iff.1 herased
  exact hclean _ (h.place_lt key e) hdead

/-- A put that passes no erased slot: it runs out of memory, it is rejected, or it binds. -/
theorem WellFormed.put_of_passes (h : WellFormed m) (callocOk : ℕ → Bool) (depth : ℕ)
    {key : UInt64} {v : Value} (hg : PassesNoErased m (.put key v)) :
    ∃ m' r, btHashmapPut callocOk (depth + 2) m key v.bits = some (m', r) ∧ WellFormed m' ∧
      ((∃ w, Bound m key w) → r = -1 ∧ ∀ k w, Bound m' k w ↔ Bound m k w) := by
  rcases h.put_cases callocOk depth key v with ⟨-, hput⟩ | ⟨-, m₀, hm₀, hput⟩
  · exact ⟨_, _, hput, ⟨h.pow, h.fits, h.chained, h.count, h.used, h.load⟩,
      fun _ => ⟨rfl, fun k w => Iff.rfl⟩⟩
  · by_cases hb : ∃ w, Bound m₀ key w
    · obtain ⟨w, hw⟩ := hb
      have hno : ¬ erasedBefore m₀ key := by
        rcases hm₀.same_or_clean with ⟨rfl, hload⟩ | ⟨-, hclean⟩
        · intro herased
          rw [hg herased] at hload
          cases hload
        · exact not_erasedBefore_of_clean hm₀.wellFormed hclean key
      rw [hm₀.wellFormed.insert_of_bound hm₀.room hw hno] at hput
      exact ⟨m₀, -1, hput, hm₀.wellFormed, fun _ => ⟨rfl, hm₀.bound⟩⟩
    · obtain ⟨m', hins, hm'⟩ := hm₀.wellFormed.insert hm₀.room (fun w hw => hb ⟨w, hw⟩) v
      refine ⟨m', 0, by rw [hput, hins], hm'.wellFormed, fun ⟨w, hw⟩ => ?_⟩
      exact absurd ⟨w, (hm₀.bound key w).2 hw⟩ hb

/-- The same bindings give the same lookups. -/
theorem get_congr (h : WellFormed m) (h' : WellFormed m')
    (hbound : ∀ k w, Bound m' k w ↔ Bound m k w) (k : UInt64) :
    btHashmapGet m' k = btHashmapGet m k := by
  by_cases hb : ∃ w, Bound m k w
  · obtain ⟨w, hw⟩ := hb
    rw [h.get_of_bound hw, h'.get_of_bound ((hbound k w).2 hw)]
  · rw [h.get_of_not_bound fun w hw => hb ⟨w, hw⟩,
      h'.get_of_not_bound fun w hw => hb ⟨w, (hbound k w).1 hw⟩]

/-- **The invariant is kept** by every call that puts no key behind an erased slot. -/
theorem next_wellFormed {op : Op} (h : WellFormed m) (hg : PassesNoErased m op)
    (hnext : next callocOk (depth + 2) m op = some m') : WellFormed m' := by
  cases op with
  | put key v =>
      obtain ⟨m₁, r, hput, hm₁, -⟩ := h.put_of_passes callocOk depth hg
      simp only [next, step, hput, Option.map_some, Option.some.injEq] at hnext
      rwa [← hnext]
  | get key =>
      obtain rfl : m = m' := by simpa [next, step] using hnext
      exact h
  | remove key =>
      obtain rfl : (btHashmapRemove m key).1 = m' := by simpa [next, step] using hnext
      by_cases hb : ∃ v, Bound m key v
      · obtain ⟨v, hv⟩ := hb
        obtain ⟨m₁, hrem, hm₁, -⟩ := h.remove_of_bound hv
        rwa [hrem]
      · rw [h.remove_of_not_bound fun v hv => hb ⟨v, hv⟩]
        exact h
  | size =>
      obtain rfl : m = m' := by simpa [next, step] using hnext
      exact h
  | clear =>
      obtain rfl : btHashmapClear m = m' := by simpa [next, step] using hnext
      exact h.clear.1

theorem WellFormed.rejectsDuplicate {op : Op} (h : WellFormed m) (hg : PassesNoErased m op) :
    RejectsDuplicate callocOk (depth + 2) m op := by
  cases op with
  | put key v =>
      intro hpresent
      obtain ⟨m₁, r, hput, hm₁, hrej⟩ := h.put_of_passes callocOk depth hg
      obtain ⟨rfl, hbound⟩ := hrej (present_iff.1 hpresent)
      exact ⟨m₁, hput, get_congr h hm₁ hbound⟩
  | get key => trivial
  | remove key => trivial
  | size => trivial
  | clear => trivial

theorem WellFormed.forgetsRemoved {op : Op} (h : WellFormed m) : ForgetsRemoved m op := by
  cases op with
  | remove key =>
      intro hrc
      by_cases hb : ∃ v, Bound m key v
      · obtain ⟨v, hv⟩ := hb
        obtain ⟨m₁, hrem, hm₁, hbound⟩ := h.remove_of_bound hv
        rw [hrem]
        refine hm₁.get_of_not_bound fun w hw => ?_
        exact ((hbound key w).1 hw).1 rfl
      · rw [h.remove_of_not_bound fun v hv => hb ⟨v, hv⟩] at hrc
        cases hrc
  | put key v => trivial
  | get key => trivial
  | size => trivial
  | clear => trivial

/-- A put of a key behind an erased slot makes two live slots with that key. -/
theorem passesNoErased_of_unique {op : Op} (h : WellFormed m)
    (hunique : ∀ m', next callocOk (depth + 2) m op = some m' → UniqueKeys m') :
    PassesNoErased m op := by
  cases op with
  | put key v =>
      intro herased
      by_contra hload
      have hload' : overloaded m = false := Bool.eq_false_iff.2 hload
      refine h.insert_duplicates hload' herased v (hunique _ ?_)
      simp only [next, step, put_of_not_overloaded v.ne_null hload', Option.map_some]
  | get key => trivial
  | remove key => trivial
  | size => trivial
  | clear => trivial

end Call

/-! ### Every run -/

/-- **The keys stay unique, duplicates are rejected and removed keys are gone exactly when no key is
put whose entry lies behind an erased slot**, in every run from a `bt_hashmap_init` that returns
`0`. -/
theorem unique_keys_iff (callocOk : ℕ → Bool) (depth : ℕ) {initOk : Bool} {capacity : ℕ} {m : Map}
    (hinit : btHashmapInit initOk capacity = some (some m)) (ops : List Op) :
    (Throughout (next callocOk (depth + 2)) UniqueKeys m ops ∧
        Along (next callocOk (depth + 2)) (RejectsDuplicate callocOk (depth + 2)) m ops ∧
          Along (next callocOk (depth + 2)) ForgetsRemoved m ops) ↔
      Along (next callocOk (depth + 2)) PassesNoErased m ops := by
  have hm := (btHashmapInit_wellFormed hinit).1
  have hkeep : ∀ m op m', WellFormed m → PassesNoErased m op →
      next callocOk (depth + 2) m op = some m' → WellFormed m' := fun m op m' => next_wellFormed
  have hiff : Throughout (next callocOk (depth + 2)) UniqueKeys m ops ↔
      Along (next callocOk (depth + 2)) PassesNoErased m ops :=
    throughout_iff_of_invariant hkeep (fun m h => h.uniqueKeys)
      (fun m op h => passesNoErased_of_unique h) hm
  constructor
  · rintro ⟨hunique, -⟩
    exact hiff.1 hunique
  · intro hg
    exact ⟨hiff.2 hg, along_of_invariant hkeep (fun m op h hg => h.rejectsDuplicate hg) hm hg,
      along_of_invariant hkeep (fun m op h _ => h.forgetsRemoved) hm hg⟩

/-- A key is put, removed and put again. -/
def putAgainRun : List Op :=
  [.put 1 ⟨16, by decide, by decide⟩, .put 9 ⟨32, by decide, by decide⟩, .remove 9,
    .put 9 ⟨48, by decide, by decide⟩]

/-- The hypothesis of `Hashmap.unique_keys_iff` holds of the smallest map, and a run that puts a
removed key again keeps the keys unique. -/
theorem unique_keys_iff_eight :
    Throughout (next (fun _ => true) 2) UniqueKeys ⟨zeroed, 8, 0, 0, 0⟩ putAgainRun :=
  ((unique_keys_iff (fun _ => true) 0
    (by rfl : btHashmapInit true 8 = some (some ⟨zeroed, 8, 0, 0, 0⟩)) putAgainRun).2
    (by decide)).1

/-- Two keys with the same home are put, the first is removed, and the second is put again. -/
def reputRun : List Op :=
  [.put 1 ⟨16, by decide, by decide⟩, .put 9 ⟨32, by decide, by decide⟩, .remove 1,
    .put 9 ⟨48, by decide, by decide⟩]

/-- The second put of the key returned `0`: slots one and two both hold it, and a removal that
returns `0` brings the older value back. -/
theorem put_after_remove_duplicates :
    ∃ m₀ m : Map, btHashmapInit true 8 = some (some m₀) ∧
      run (next (fun _ => true) 2) m₀ reputRun = some m ∧
      (m.entries 1 = ⟨9, 48⟩ ∧ m.entries 2 = ⟨9, 32⟩) ∧ ¬ UniqueKeys m ∧
      (btHashmapRemove m 9).2 = 0 ∧ btHashmapGet (btHashmapRemove m 9).1 9 = 32 := by
  refine ⟨_, _, rfl, rfl, ⟨rfl, rfl⟩, fun h => ?_, rfl, rfl⟩
  have := h 1 2 (by decide) (by decide) rfl rfl rfl
  omega

end Hashmap
