/-
**The counters of the hash map.**

`bt_hashmap_put` and `bt_hashmap_remove` keep two counters beside the table: the live entries and
the erased ones.  The load test adds them up.  A put that takes an erased slot is meant to count one
erased slot less, but it tests the slot for the marker after it has written the new value, so it
never does.  Hence `count` is always right, and `tombstones` exactly as long as no erased slot is
taken; and the sum of the two is the number of entries that were ever stored, so that a table with
few live entries is resized after three quarters of its capacity in puts.

Main definitions:

* `Hashmap.liveSlots`, `Hashmap.erasedSlots`, `Hashmap.CountersRight` — what the counters should be;
* `Hashmap.reusesErased`, `Hashmap.ReusesNone` — a put takes an erased slot;
* `Hashmap.Tallied` — the invariant: `count` is right, and `tombstones` is not too small;
* `Hashmap.Tracked`, `Hashmap.hotStep` — the calls of the hot path, with the number of entries that
  were ever stored.

Main results:

* `Hashmap.Tallied.put_cases` — what a put can do, duplicates included;
* `Hashmap.counters_right_iff` — **the counters are right exactly as long as no put takes an erased
  slot**;
* `Hashmap.never_resized_iff` — **the table is not resized exactly as long as fewer entries than
  three quarters of the capacity were ever stored**.
-/

import AspiraBroker.HashmapDuplicates

set_option relaxedAutoImplicit false
set_option autoImplicit false

namespace Hashmap

open Search Probing Transition

/-! ### Live and erased slots -/

/-- The slot holds the marker. -/
def Entry.isErased (e : Entry) : Bool := e.value = btHashmapTombstone

/-- The number of live slots. -/
def liveSlots (m : Map) : ℕ := Counting.count Entry.isLive m.capacity m.entries

/-- The number of slots that hold the marker. -/
def erasedSlots (m : Map) : ℕ := Counting.count Entry.isErased m.capacity m.entries

/-- The counters describe the table. -/
def CountersRight (m : Map) : Prop := m.count = liveSlots m ∧ m.tombstones = erasedSlots m

/-- The first slot on the way of the key that does not hold another key is an erased one. -/
def reusesErased (m : Map) (key : UInt64) : Prop :=
  ∃ d < m.capacity, (m.entries (hmProbe key d m.capacity)).isErased = true ∧
    ∀ e < d, (m.entries (hmProbe key e m.capacity)).isLive = true ∧
      (m.entries (hmProbe key e m.capacity)).key ≠ key

instance (m : Map) (key : UInt64) : Decidable (reusesErased m key) := by
  unfold reusesErased
  infer_instance

/-- No put takes an erased slot, unless the load test asks for a resize. -/
def ReusesNone (m : Map) : Op → Prop
  | .put key _ => reusesErased m key → overloaded m = true
  | _ => True

instance (m : Map) : ∀ op, Decidable (ReusesNone m op)
  | .put key _ => inferInstanceAs (Decidable (reusesErased m key → overloaded m = true))
  | .get _ | .remove _ | .size | .clear => isTrue trivial

theorem isErased_of_isLive {e : Entry} (h : e.isLive = true) : e.isErased = false := by
  simp only [Entry.isLive, Bool.and_eq_true, decide_eq_true_eq] at h
  simp [Entry.isErased, h.2]

theorem isErased_cell (e : Entry) : e.isErased = true ↔ e.cell = .dead := by
  rw [cell_eq_dead_iff, Entry.isErased, decide_eq_true_eq]

/-- The used slots are the live and the erased ones. -/
theorem count_used (m : Map) :
    Counting.count Cell.isUsed m.capacity (cells m) = liveSlots m + erasedSlots m := by
  rw [liveSlots, erasedSlots, ← Counting.count_or fun e => isErased_of_isLive]
  unfold Counting.count
  congr 2
  funext i
  change ((m.entries i).cell.isUsed = true) = _
  cases hc : (m.entries i).cell with
  | empty =>
      have := cell_eq_empty_iff.1 hc
      simp [Cell.isUsed, Entry.isLive, Entry.isErased, this, btHashmapTombstone]
  | dead => simp [Cell.isUsed, (isErased_cell _).2 hc]
  | full k v => simp [Cell.isUsed, (cell_eq_full_iff.1 hc).1]

/-! ### The invariant -/

/-- **The invariant**: the live slots are counted, and no fewer erased ones than there are. -/
structure Tallied (m : Map) : Prop where
  sized : Sized m
  count : m.count = liveSlots m
  erased : erasedSlots m ≤ m.tombstones

/-- A fresh table has neither live nor erased slots. -/
theorem tallied_zeroed {cap r : ℕ} (hsized : Sized ⟨zeroed, cap, 0, 0, r⟩) :
    Tallied ⟨zeroed, cap, 0, 0, r⟩ := by
  refine ⟨hsized, ?_, ?_⟩
  · simp [liveSlots, Counting.count, zeroed, Entry.isLive]
  · simp [erasedSlots, Counting.count, zeroed, Entry.isErased, btHashmapTombstone]

section Updates

variable {m : Map}

/-- A store leaves the count of erased slots as it is. -/
theorem tombstones_store (m : Map) (idx : ℕ) (key : UInt64) (v : Value) :
    (store m idx key v.bits).tombstones = m.tombstones := by
  rw [store_value]

/-- What a store does to the live slots. -/
theorem liveSlots_store {idx : ℕ} (hidx : idx < m.capacity)
    (hfree : (m.entries idx).isLive = false) (key : UInt64) (v : Value) :
    liveSlots (store m idx key v.bits) = liveSlots m + 1 := by
  have hlive : (Entry.mk key v.bits).isLive = true := by
    simp [Entry.isLive, v.ne_null, v.ne_tombstone]
  rw [store_value]
  exact Counting.count_update_gain hidx hfree hlive

/-- What a store does to the erased slots. -/
theorem erasedSlots_store {idx : ℕ} (hidx : idx < m.capacity) (key : UInt64) (v : Value) :
    erasedSlots (store m idx key v.bits) + (if (m.entries idx).isErased = true then 1 else 0) =
      erasedSlots m := by
  have h := Counting.count_update (t := m.entries) Entry.isErased hidx ⟨key, v.bits⟩
  rw [if_neg (by simp [Entry.isErased, v.ne_tombstone] :
    ¬ (Entry.mk key v.bits).isErased = true)] at h
  rw [store_value]
  exact h

/-- What an erasure does to the live slots. -/
theorem liveSlots_erase {idx : ℕ} (hidx : idx < m.capacity)
    (hlive : (m.entries idx).isLive = true) : liveSlots (erase m idx) + 1 = liveSlots m := by
  have herased : (Entry.mk (m.entries idx).key btHashmapTombstone).isLive = false := by
    simp [Entry.isLive]
  exact Counting.count_update_loss hidx hlive herased

/-- What an erasure does to the erased slots. -/
theorem erasedSlots_erase {idx : ℕ} (hidx : idx < m.capacity)
    (hlive : (m.entries idx).isLive = true) : erasedSlots (erase m idx) = erasedSlots m + 1 := by
  have herased : (Entry.mk (m.entries idx).key btHashmapTombstone).isErased = true := by
    simp [Entry.isErased]
  exact Counting.count_update_gain hidx (isErased_of_isLive hlive) herased

/-- Storing in a free slot keeps the invariant. -/
theorem Tallied.store (h : Tallied m) {idx : ℕ} (hidx : idx < m.capacity)
    (hfree : (m.entries idx).isLive = false) (key : UInt64) (v : Value) :
    Tallied (Hashmap.store m idx key v.bits) := by
  have hlive := liveSlots_store hidx hfree key v
  have herased := erasedSlots_store hidx key v
  have hcount := h.count
  have hle := h.erased
  refine ⟨?_, ?_, ?_⟩
  · rw [store_value]
    exact ⟨h.sized.pow, h.sized.fits⟩
  · rw [hlive, store_value, ← hcount]
  · rw [tombstones_store]
    omega

/-- Erasing a live slot keeps the invariant. -/
theorem Tallied.erase (h : Tallied m) {idx : ℕ} (hidx : idx < m.capacity)
    (hlive : (m.entries idx).isLive = true) :
    Tallied (Hashmap.erase m idx) ∧ (Hashmap.erase m idx).count + 1 = m.count := by
  have hless := liveSlots_erase hidx hlive
  have hmore := erasedSlots_erase hidx hlive
  have hcount := h.count
  have hlt : m.count < 2 ^ 64 := by
    have := Counting.count_le (n := m.capacity) (t := m.entries) Entry.isLive
    have hfits := h.sized.fits
    rw [liveSlots] at hcount
    omega
  have hdec : (Hashmap.erase m idx).count = m.count - 1 := sizeDec_eq (by omega) hlt
  have hle := h.erased
  refine ⟨⟨⟨h.sized.pow, h.sized.fits⟩, by omega, ?_⟩, by omega⟩
  change erasedSlots (Hashmap.erase m idx) ≤ m.tombstones + 1
  omega

end Updates

/-! ### Insertion -/

/-- What the loop of a put can do: it meets the key before a free slot, or it stores in a free slot,
which is an erased one exactly if the first slot without another key is. -/
inductive Inserts (m : Map) (key : UInt64) (v : Value) : Map × ℤ → Prop
  | rejected (hno : ¬ reusesErased m key) : Inserts m key v (m, -1)
  | stored {idx : ℕ} (hidx : idx < m.capacity) (hfree : (m.entries idx).isLive = false)
      (herased : reusesErased m key ↔ (m.entries idx).isErased = true) :
      Inserts m key v (Hashmap.store m idx key v.bits, 0)

section Insertion

variable {m : Map}

/-- The load test leaves an empty slot. -/
theorem Tallied.room (h : Tallied m) (hload : overloaded m = false) :
    Counting.count Cell.isUsed m.capacity (cells m) < m.capacity := by
  have hle := h.erased
  have hcount := h.count
  rw [overloaded_eq_false_iff] at hload
  rw [count_used]
  omega

/-- The slots that the search has passed are live. -/
theorem Passed.isLive {key : UInt64} {d : ℕ} (hsized : Sized m) (h : Passed m key d) :
    ∀ e < d, (m.entries (hmProbe key e m.capacity)).isLive = true ∧
      (m.entries (hmProbe key e m.capacity)).key ≠ key := by
  intro e he
  obtain ⟨k, v, hc, hne⟩ := h e he
  rw [hsized.probe_eq]
  obtain ⟨hlive, hkey, -⟩ := cell_eq_full_iff.1 hc
  exact ⟨hlive, by rw [hkey]; exact hne⟩

/-- **What the loop of a put can do** in a table with room. -/
theorem Tallied.inserts (h : Tallied m) (hload : overloaded m = false) (key : UInt64)
    (v : Value) : Inserts m key v (Hashmap.insert m key v.bits) := by
  obtain ⟨d, hd, hpassed, hcase⟩ := h.sized.putSlot_cases (h.room hload) key
  have hbefore := hpassed.isLive h.sized
  -- an erased slot is met where the search stops, and not before
  have hmeets : reusesErased m key → (m.entries (hmProbe key d m.capacity)).isErased = true ∨
      (m.entries (hmProbe key d m.capacity)).isLive = true ∧
        (m.entries (hmProbe key d m.capacity)).key ≠ key := by
    rintro ⟨d', -, herased, hlives⟩
    rcases Nat.lt_trichotomy d' d with hlt | rfl | hgt
    · rw [isErased_of_isLive (hbefore d' hlt).1] at herased
      cases herased
    · exact Or.inl herased
    · exact Or.inr (hlives d hgt)
  rw [h.sized.probe_eq] at hmeets
  rcases hcase with ⟨hput, hfree⟩ | ⟨hput, w, hfull⟩
  · rw [Hashmap.insert, hput]
    rw [cells, cell_isFull] at hfree
    refine .stored (h.sized.place_lt key d) hfree ⟨fun hre => ?_, fun herased => ?_⟩
    · rcases hmeets hre with herased | ⟨hlive, -⟩
      · exact herased
      · rw [hfree] at hlive
        cases hlive
    · exact ⟨d, hd, by rw [h.sized.probe_eq]; exact herased, hbefore⟩
  · rw [Hashmap.insert, hput]
    obtain ⟨hlive, hkey, -⟩ := cell_eq_full_iff.1 hfull
    refine .rejected fun hre => ?_
    rcases hmeets hre with herased | ⟨-, hne⟩
    · rw [isErased_of_isLive hlive] at herased
      cases herased
    · exact hne hkey

end Insertion

/-! ### Resize -/

/-- The new table after the first `n` slots of the old one: no slot is erased, and no more are live
than before. -/
structure Copied (old : ℕ → Entry) (n newCap resizes : ℕ) (m : Map) : Prop where
  tallied : Tallied m
  capacity : m.capacity = newCap
  resizes_eq : m.resizes = resizes
  tombstones : m.tombstones = 0
  count : m.count ≤ n

/-- One slot more. -/
theorem Copied.succ (callocOk : ℕ → Bool) (depth : ℕ) {m m' : Map} {n r : ℕ}
    (hcap : 8 ≤ m.capacity) (hn : n < m.capacity)
    (hm' : Copied m.entries n (m.capacity * 2) r m') (hlive : (m.entries n).isLive = true) :
    ∃ m'' rc, btHashmapPut callocOk (depth + 1) m' (m.entries n).key (m.entries n).value
        = some (m'', rc) ∧ Copied m.entries (n + 1) (m.capacity * 2) r m'' := by
  have hroom : overloaded m' = false := by
    have := hm'.count
    rw [overloaded_eq_false_iff, hm'.tombstones, hm'.capacity]
    omega
  obtain ⟨v, hv⟩ := exists_value hlive
  rw [← hv, put_of_not_overloaded v.ne_null hroom]
  have hins := hm'.tallied.inserts hroom (m.entries n).key v
  generalize Hashmap.insert m' (m.entries n).key v.bits = r' at hins ⊢
  refine ⟨r'.1, r'.2, rfl, ?_⟩
  cases hins with
  | rejected hno => exact { hm' with count := hm'.count.trans (Nat.le_succ n) }
  | stored hidx hfree herased =>
      have hstore := hm'.tallied.store hidx hfree (m.entries n).key v
      rw [store_value] at hstore ⊢
      exact ⟨hstore, hm'.capacity, hm'.resizes_eq, hm'.tombstones, Nat.succ_le_succ hm'.count⟩

/-- The loop of the resize. -/
theorem rehash_copied (callocOk : ℕ → Bool) (depth : ℕ) {m : Map} (h : Sized m)
    (hfits : m.capacity * 2 * 16 < 2 ^ 64) (r : ℕ) :
    ∀ n ≤ m.capacity, ∃ m', rehash (btHashmapPut callocOk (depth + 1)) m.entries n
      ⟨zeroed, m.capacity * 2, 0, 0, r⟩ = some m' ∧ Copied m.entries n (m.capacity * 2) r m' := by
  obtain ⟨c, hc, hcap⟩ := h.pow
  have hnew : Sized ⟨zeroed, m.capacity * 2, 0, 0, r⟩ :=
    ⟨⟨c + 1, by omega, by rw [hcap, Nat.pow_succ]⟩, hfits⟩
  intro n
  induction n with
  | zero => exact fun _ => ⟨_, rfl, tallied_zeroed hnew, rfl, rfl, rfl, le_rfl⟩
  | succ n ih =>
      intro hn
      obtain ⟨m', hrun, hm'⟩ := ih (by omega)
      rw [rehash, hrun]
      cases hlive : (m.entries n).isLive with
      | false =>
          exact ⟨m', by simp, { hm' with count := hm'.count.trans (Nat.le_succ n) }⟩
      | true =>
          obtain ⟨m'', rc, hput, hm''⟩ := Copied.succ callocOk depth h.eight_le hn hm' hlive
          exact ⟨m'', by simp [hput], hm''⟩

/-- Everything a put can do: it inserts into the table, or it makes a resize, which runs out of
memory or leads to a table without erased slots. -/
inductive Puts (m : Map) (key : UInt64) (v : Value) : Option (Map × ℤ) → Prop
  | inserted (hload : overloaded m = false) : Puts m key v (some (Hashmap.insert m key v.bits))
  | noMemory (hload : overloaded m = true) :
      Puts m key v (some ({ m with resizes := m.resizes + 1 }, -1))
  | resized {m₀ : Map} (hload : overloaded m = true) (hm₀ : Tallied m₀)
      (hroom : overloaded m₀ = false) (hclean : m₀.tombstones = 0)
      (hresizes : m₀.resizes = m.resizes + 1) :
      Puts m key v (some (Hashmap.insert m₀ key v.bits))

/-- **What a put can do**, on tables with duplicates as well. -/
theorem Tallied.put_cases {m : Map} (h : Tallied m) (callocOk : ℕ → Bool) (depth : ℕ)
    (key : UInt64) (v : Value) :
    Puts m key v (btHashmapPut callocOk (depth + 2) m key v.bits) := by
  cases hload : overloaded m with
  | false =>
      rw [put_of_not_overloaded v.ne_null hload]
      exact .inserted hload
  | true =>
      rw [btHashmapPut, if_neg v.ne_null, hload, hmResize]
      cases hok : (callocOk m.resizes && callocFits (m.capacity * 2)) with
      | false =>
          simp only [if_true, Bool.false_eq_true, if_false]
          exact .noMemory hload
      | true =>
          have hfits : m.capacity * 2 * 16 < 2 ^ 64 := by
            simp only [Bool.and_eq_true, callocFits, decide_eq_true_eq] at hok
            exact hok.2
          obtain ⟨m₀, hrun, hm₀⟩ := rehash_copied callocOk depth h.sized hfits (m.resizes + 1)
            m.capacity le_rfl
          have hroom : overloaded m₀ = false := by
            have hcap := h.sized.eight_le
            have := hm₀.count
            rw [overloaded_eq_false_iff, hm₀.tombstones, hm₀.capacity]
            omega
          simp only [if_true, hrun, Option.map_some, ne_eq, not_true_eq_false, if_false]
          exact .resized hload hm₀.tallied hroom hm₀.tombstones hm₀.resizes_eq

/-! ### When the counters are right -/

section Counters

variable {callocOk : ℕ → Bool} {depth : ℕ} {m m' : Map}

/-- An insertion that takes no erased slot keeps the counters right. -/
theorem countersRight_insert (hsized : Sized m) (h : CountersRight m)
    (hload : overloaded m = false) {key : UInt64} (hno : ¬ reusesErased m key) (v : Value) :
    Sized (Hashmap.insert m key v.bits).1 ∧ CountersRight (Hashmap.insert m key v.bits).1 := by
  have htallied : Tallied m := ⟨hsized, h.1, h.2.ge⟩
  have hins := htallied.inserts hload key v
  generalize Hashmap.insert m key v.bits = r at hins ⊢
  cases hins with
  | rejected _ => exact ⟨hsized, h⟩
  | stored hidx hfree herased =>
      have hstore := htallied.store hidx hfree key v
      have hkept := erasedSlots_store hidx key v
      rw [if_neg fun he => hno (herased.2 he), Nat.add_zero] at hkept
      refine ⟨hstore.sized, hstore.count, ?_⟩
      rw [hkept, tombstones_store, h.2]

/-- An insertion that takes an erased slot leaves it counted as erased. -/
theorem not_countersRight_insert (hsized : Sized m) (h : CountersRight m)
    (hload : overloaded m = false) {key : UInt64} (hre : reusesErased m key) (v : Value) :
    ¬ CountersRight (Hashmap.insert m key v.bits).1 := by
  have htallied : Tallied m := ⟨hsized, h.1, h.2.ge⟩
  have hins := htallied.inserts hload key v
  generalize Hashmap.insert m key v.bits = r at hins ⊢
  cases hins with
  | rejected hno => exact absurd hre hno
  | stored hidx hfree herased =>
      have hless := erasedSlots_store hidx key v
      rw [if_pos (herased.1 hre)] at hless
      rintro ⟨-, htomb⟩
      change (Hashmap.store m _ key v.bits).tombstones = erasedSlots (Hashmap.store m _ key v.bits)
        at htomb
      rw [tombstones_store, h.2] at htomb
      omega

/-- A table that counts no slot as erased has none. -/
theorem countersRight_of_clean (h : Tallied m) (hclean : m.tombstones = 0) : CountersRight m := by
  have := h.erased
  exact ⟨h.count, by omega⟩

theorem not_reusesErased_of_clean (h : Tallied m) (hclean : m.tombstones = 0) (key : UInt64) :
    ¬ reusesErased m key := by
  rintro ⟨d, hd, herased, -⟩
  have hnone : erasedSlots m = 0 := by
    have := h.erased
    omega
  rw [erasedSlots, Counting.count, Finset.card_eq_zero, Finset.filter_eq_empty_iff] at hnone
  refine hnone (Finset.mem_range.2 ?_) herased
  rw [h.sized.probe_eq]
  exact h.sized.place_lt key d

/-- **The counters stay right** in every call that takes no erased slot. -/
theorem next_countersRight {op : Op} (h : Sized m ∧ CountersRight m) (hg : ReusesNone m op)
    (hnext : next callocOk (depth + 2) m op = some m') : Sized m' ∧ CountersRight m' := by
  obtain ⟨hsized, hright⟩ := h
  have htallied : Tallied m := ⟨hsized, hright.1, hright.2.ge⟩
  cases op with
  | put key v =>
      have hput := htallied.put_cases callocOk depth key v
      simp only [next, step, Option.map_map] at hnext
      generalize btHashmapPut callocOk (depth + 2) m key v.bits = r at hput hnext
      cases hput with
      | inserted hload =>
          obtain rfl := Option.some.inj hnext
          refine countersRight_insert hsized hright hload (fun hre => ?_) v
          rw [hg hre] at hload
          cases hload
      | noMemory hload =>
          obtain rfl := Option.some.inj hnext
          exact ⟨⟨hsized.pow, hsized.fits⟩, hright⟩
      | resized hload hm₀ hroom hclean hresizes =>
          obtain rfl := Option.some.inj hnext
          exact countersRight_insert hm₀.sized (countersRight_of_clean hm₀ hclean) hroom
            (not_reusesErased_of_clean hm₀ hclean key) v
  | get key =>
      obtain rfl : m = m' := by simpa [next, step] using hnext
      exact ⟨hsized, hright⟩
  | remove key =>
      obtain rfl : (btHashmapRemove m key).1 = m' := by simpa [next, step] using hnext
      unfold btHashmapRemove
      split
      · exact ⟨hsized, hright⟩
      · next idx hfind =>
          obtain ⟨hidx, v, hc⟩ := hsized.full_of_findSlot hfind
          obtain ⟨hlive, -, -⟩ := cell_eq_full_iff.1 hc
          have herase := (htallied.erase hidx hlive).1
          refine ⟨herase.sized, herase.count, ?_⟩
          change m.tombstones + 1 = erasedSlots (erase m idx)
          rw [erasedSlots_erase hidx hlive, hright.2]
  | size =>
      obtain rfl : m = m' := by simpa [next, step] using hnext
      exact ⟨hsized, hright⟩
  | clear =>
      obtain rfl : btHashmapClear m = m' := by simpa [next, step] using hnext
      have hclear : Tallied (btHashmapClear m) := tallied_zeroed ⟨hsized.pow, hsized.fits⟩
      exact ⟨hclear.sized, countersRight_of_clean hclear rfl⟩

/-- A put that takes an erased slot makes the counters wrong. -/
theorem reusesNone_of_countersRight {op : Op} (h : Sized m ∧ CountersRight m)
    (hright : ∀ m', next callocOk (depth + 2) m op = some m' → CountersRight m') :
    ReusesNone m op := by
  cases op with
  | put key v =>
      intro hre
      by_contra hload
      have hload' : overloaded m = false := Bool.eq_false_iff.2 hload
      refine not_countersRight_insert h.1 h.2 hload' hre v (hright _ ?_)
      simp only [next, step, put_of_not_overloaded v.ne_null hload', Option.map_some]
  | get key => trivial
  | remove key => trivial
  | size => trivial
  | clear => trivial

/-- A map that `bt_hashmap_init` has set up. -/
theorem btHashmapInit_tallied {initOk : Bool} {capacity : ℕ}
    (h : btHashmapInit initOk capacity = some (some m)) :
    Tallied m ∧ m.count = 0 ∧ m.tombstones = 0 ∧ m.resizes = 0 := by
  have hsized := (btHashmapInit_wellFormed h).1.sized
  unfold btHashmapInit at h
  split at h
  · cases h
  · split at h
    · cases h
    · split at h
      · obtain rfl := Option.some.inj (Option.some.inj h)
        exact ⟨tallied_zeroed hsized, rfl, rfl, rfl⟩
      · cases h

end Counters

/-- **The counters describe the table exactly as long as no put takes an erased slot**: in every run
from a `bt_hashmap_init` that returns `0`, resizes included. -/
theorem counters_right_iff (callocOk : ℕ → Bool) (depth : ℕ) {initOk : Bool} {capacity : ℕ}
    {m : Map} (hinit : btHashmapInit initOk capacity = some (some m)) (ops : List Op) :
    Throughout (next callocOk (depth + 2)) CountersRight m ops ↔
      Along (next callocOk (depth + 2)) ReusesNone m ops := by
  obtain ⟨hm, -, hclean, -⟩ := btHashmapInit_tallied hinit
  exact throughout_iff_of_invariant (I := fun m => Sized m ∧ CountersRight m)
    (fun _ _ _ h hg hnext => next_countersRight h hg hnext) (fun _ h => h.2)
    (fun _ _ h hright => reusesNone_of_countersRight h hright)
    ⟨hm.sized, countersRight_of_clean hm hclean⟩

/-- The hypothesis of `Hashmap.counters_right_iff` holds of the smallest map, and a run that puts no
key in the place of an erased one keeps the counters right. -/
theorem counters_right_iff_eight :
    Throughout (next (fun _ => true) 2) CountersRight ⟨zeroed, 8, 0, 0, 0⟩
      [.put 1 ⟨16, by decide, by decide⟩, .remove 1, .put 2 ⟨32, by decide, by decide⟩] :=
  (counters_right_iff (fun _ => true) 0
    (by rfl : btHashmapInit true 8 = some (some ⟨zeroed, 8, 0, 0, 0⟩)) _).2 (by decide)

/-- A key is put, removed and put again: no slot is erased any more, and one is counted. -/
theorem reused_slot_stays_counted :
    ∃ m₀ m : Map, btHashmapInit true 8 = some (some m₀) ∧
      run (next (fun _ => true) 2) m₀ [.put 1 ⟨16, by decide, by decide⟩, .remove 1,
        .put 1 ⟨32, by decide, by decide⟩] = some m ∧
      m.tombstones = 1 ∧ erasedSlots m = 0 ∧ ¬ CountersRight m := by
  refine ⟨_, _, rfl, rfl, rfl, by decide, fun h => ?_⟩
  exact absurd h.2 (by decide)

/-! ### When the table is resized -/

/-- The calls of the hot path. -/
inductive HotOp
  | put (key : UInt64) (value : Value)
  | get (key : UInt64)
  | remove (key : UInt64)

/-- A call of the hot path as a call. -/
def HotOp.op : HotOp → Op
  | .put key value => .put key value
  | .get key => .get key
  | .remove key => .remove key

/-- The orders `1` to `n` come one after the other, each gone before the next comes. -/
def comings (node : Value) (n : ℕ) : List HotOp :=
  (List.range n).flatMap fun i =>
    [.put (UInt64.ofNat (i + 1)) node, .remove (UInt64.ofNat (i + 1))]

/-- The map, and the number of entries that were ever stored. -/
structure Tracked where
  map : Map
  stored : ℕ

/-- What a result adds to the entries that were ever stored. -/
def Result.stores : Result → ℕ
  | .put 0 _ _ => 1
  | _ => 0

/-- One call of the hot path. -/
def hotStep (callocOk : ℕ → Bool) (depth : ℕ) (s : Tracked) (a : HotOp) : Option Tracked :=
  (step callocOk depth s.map a.op).map fun r => ⟨r.1, s.stored + r.2.stores⟩

/-- The table is the one that `bt_hashmap_init` has allocated. -/
def NeverResized (cap : ℕ) (s : Tracked) : Prop := s.map.resizes = 0 ∧ s.map.capacity = cap

/-- Fewer entries than three quarters of the capacity were ever stored when a put comes. -/
def FewStored (cap : ℕ) (s : Tracked) : HotOp → Prop
  | .put _ _ => s.stored * 4 < cap * 3
  | _ => True

instance (cap : ℕ) (s : Tracked) : ∀ a, Decidable (FewStored cap s a)
  | .put _ _ => inferInstanceAs (Decidable (s.stored * 4 < cap * 3))
  | .get _ | .remove _ => isTrue trivial

/-- The counters add up to the number of entries that were ever stored. -/
structure Accrued (cap : ℕ) (s : Tracked) : Prop where
  tallied : Tallied s.map
  never : NeverResized cap s
  sum : s.map.count + s.map.tombstones = s.stored

section Hot

variable {callocOk : ℕ → Bool} {depth cap : ℕ} {s s' : Tracked}

theorem Accrued.overloaded_iff (h : Accrued cap s) :
    overloaded s.map = false ↔ s.stored * 4 < cap * 3 := by
  rw [overloaded_eq_false_iff, h.sum, h.never.2]

/-- An entry that is stored is added to the sum. -/
theorem Accrued.insert (h : Accrued cap s) (hload : overloaded s.map = false) (key : UInt64)
    (v : Value) (noMemory : Bool) (resizes : ℕ) :
    Accrued cap ⟨(Hashmap.insert s.map key v.bits).1, s.stored +
      (Result.put (Hashmap.insert s.map key v.bits).2 noMemory resizes).stores⟩ := by
  have hins := h.tallied.inserts hload key v
  generalize Hashmap.insert s.map key v.bits = r at hins ⊢
  cases hins with
  | rejected hno => exact ⟨h.tallied, h.never, h.sum⟩
  | @stored idx hidx hfree herased =>
      refine ⟨h.tallied.store hidx hfree key v, ?_, ?_⟩
      · change NeverResized cap ⟨Hashmap.store s.map idx key v.bits, _⟩
        rw [store_value]
        exact h.never
      · change (Hashmap.store s.map idx key v.bits).count
          + (Hashmap.store s.map idx key v.bits).tombstones = s.stored + 1
        have := h.sum
        rw [store_value]
        change s.map.count + 1 + s.map.tombstones = s.stored + 1
        omega

/-- **The sum is kept** by every call that comes before the table is three quarters used. -/
theorem hotStep_accrued {a : HotOp} (h : Accrued cap s) (hg : FewStored cap s a)
    (hstep : hotStep callocOk (depth + 2) s a = some s') : Accrued cap s' := by
  cases a with
  | put key v =>
      have hload := h.overloaded_iff.2 hg
      simp only [hotStep, HotOp.op, step, put_of_not_overloaded v.ne_null hload, Option.map_some,
        Option.some.injEq] at hstep
      subst hstep
      exact h.insert hload key v _ _
  | get key =>
      obtain rfl : s = s' := Option.some.inj hstep
      exact h
  | remove key =>
      simp only [hotStep, HotOp.op, step, Option.map_some, Option.some.injEq] at hstep
      subst hstep
      unfold btHashmapRemove
      split
      · exact ⟨h.tallied, h.never, h.sum⟩
      · next idx hfind =>
          obtain ⟨hidx, v, hc⟩ := h.tallied.sized.full_of_findSlot hfind
          obtain ⟨herase, hcount⟩ := h.tallied.erase hidx (cell_eq_full_iff.1 hc).1
          refine ⟨herase, h.never, ?_⟩
          have := h.sum
          change (erase s.map idx).count + (s.map.tombstones + 1) = s.stored
          omega

/-- A put into a table that is three quarters used makes a resize. -/
theorem fewStored_of_neverResized {a : HotOp} (h : Accrued cap s)
    (hnever : ∀ s', hotStep callocOk (depth + 2) s a = some s' → NeverResized cap s') :
    FewStored cap s a := by
  cases a with
  | put key v =>
      by_contra hmany
      have hload : overloaded s.map = true := by
        rw [← Bool.not_eq_false]
        exact mt h.overloaded_iff.1 hmany
      have hput := h.tallied.put_cases callocOk depth key v
      simp only [hotStep, HotOp.op, step, Option.map_map] at hnever
      generalize btHashmapPut callocOk (depth + 2) s.map key v.bits = r at hput hnever
      cases hput with
      | inserted hroom =>
          rw [hload] at hroom
          cases hroom
      | noMemory _ =>
          have := (hnever _ rfl).1
          exact Nat.succ_ne_zero _ this
      | @resized m₀ _ hm₀ hroom hclean hresizes =>
          have hzero : (Hashmap.insert m₀ key v.bits).1.resizes = 0 := (hnever _ rfl).1
          have hins := hm₀.inserts hroom key v
          generalize Hashmap.insert m₀ key v.bits = r at hins hzero
          cases hins with
          | rejected _ => exact Nat.succ_ne_zero _ (hresizes ▸ hzero)
          | stored hidx hfree herased =>
              rw [store_value] at hzero
              exact Nat.succ_ne_zero _ (hresizes ▸ hzero)
  | get key => trivial
  | remove key => trivial

end Hot

/-- **The table is not resized exactly as long as fewer entries than three quarters of its capacity
were ever stored**, however few of them are live: in every run of put, get and remove from a
`bt_hashmap_init` that returns `0`. -/
theorem never_resized_iff (callocOk : ℕ → Bool) (depth : ℕ) {initOk : Bool} {capacity : ℕ}
    {m : Map} (hinit : btHashmapInit initOk capacity = some (some m)) (acts : List HotOp) :
    Throughout (hotStep callocOk (depth + 2)) (NeverResized m.capacity) ⟨m, 0⟩ acts ↔
      Along (hotStep callocOk (depth + 2)) (FewStored m.capacity) ⟨m, 0⟩ acts := by
  obtain ⟨hm, hcount, hclean, hresizes⟩ := btHashmapInit_tallied hinit
  exact throughout_iff_of_invariant (I := Accrued m.capacity)
    (fun _ _ _ h hg hstep => hotStep_accrued h hg hstep) (fun _ h => h.never)
    (fun _ _ h hnever => fewStored_of_neverResized h hnever)
    ⟨hm, ⟨hresizes, rfl⟩, by rw [hcount, hclean]⟩

/-- The hypothesis of `Hashmap.never_resized_iff` holds of the smallest map, and three orders that
come and go one after the other leave it as it is. -/
theorem never_resized_iff_eight :
    Throughout (hotStep (fun _ => true) 2) (NeverResized 8) ⟨⟨zeroed, 8, 0, 0, 0⟩, 0⟩
      (comings ⟨16, by decide, by decide⟩ 3) :=
  (never_resized_iff (fun _ => true) 0
    (by rfl : btHashmapInit true 8 = some (some ⟨zeroed, 8, 0, 0, 0⟩)) _).2 (by decide)

/-- Seven orders come and go one after the other: there is never more than one live entry in the
table of eight slots, and the seventh makes it grow to sixteen. -/
theorem resized_with_one_live_entry :
    ∃ (m₀ : Map) (s : Tracked), btHashmapInit true 8 = some (some m₀) ∧
      run (hotStep (fun _ => true) 2) ⟨m₀, 0⟩ (comings ⟨16, by decide, by decide⟩ 7) = some s ∧
      Along (hotStep (fun _ => true) 2) (fun s _ => liveSlots s.map * 2 < 8) ⟨m₀, 0⟩
        (comings ⟨16, by decide, by decide⟩ 7) ∧
      s.map.resizes = 1 ∧ s.map.capacity = 16 ∧ liveSlots s.map = 0 := by
  refine ⟨_, _, rfl, rfl, by decide, by decide, by decide, by decide⟩

end Hashmap
