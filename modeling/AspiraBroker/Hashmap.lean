/-
**The hash map, as the header computes it.**

`bt_hashmap.h` is a table of key and pointer pairs with linear probing.  An empty slot holds the
null pointer and an erased one a marker.  A put first grows the table when it is three quarters
used, by putting every live entry into a table of twice the size, so put and resize call each other.
This module follows the header; the depth of that recursion is bounded by a number, and the results
of the allocations are given from outside.

Main definitions:

* `Hashmap.Entry`, `Hashmap.Map`, `Hashmap.Value` — the data, and the values a caller may put;
* `Hashmap.btHashmapInit`, `Hashmap.btHashmapPut`, `Hashmap.hmResize`, `Hashmap.btHashmapGet`,
  `Hashmap.btHashmapRemove`, `Hashmap.btHashmapSize`, `Hashmap.btHashmapClear` — the functions;
* `Hashmap.Op`, `Hashmap.Result`, `Hashmap.step` — a caller that uses the map.
-/

import AspiraBroker.BoundedSearch
import Mathlib.Algebra.Group.Nat.Defs
import Mathlib.Logic.Function.Basic

set_option relaxedAutoImplicit false
set_option autoImplicit false

namespace Hashmap

open Search

/-! ### Data -/

/-- A `bt_hashmap_entry_t`; the value is the bits of a pointer. -/
structure Entry where
  key : UInt64
  value : UInt64
  deriving DecidableEq

/-- `BT_HASHMAP_TOMBSTONE`. -/
def btHashmapTombstone : UInt64 := 1

/-- `BT_HASHMAP_LOAD_FACTOR_NUM`. -/
def btHashmapLoadFactorNum : ℕ := 3

/-- `BT_HASHMAP_LOAD_FACTOR_DEN`. -/
def btHashmapLoadFactorDen : ℕ := 4

/-- A value that a caller may put: neither the null pointer nor the marker. -/
structure Value where
  bits : UInt64
  ne_null : bits ≠ 0
  ne_tombstone : bits ≠ btHashmapTombstone

/-- A `bt_hashmap_t` with its table allocated.  `resizes` counts the calls of `_hm_resize`; the
functions do not look at it. -/
structure Map where
  entries : ℕ → Entry
  capacity : ℕ
  count : ℕ
  tombstones : ℕ
  resizes : ℕ

/-- The slot holds an entry: neither the null pointer nor the marker. -/
def Entry.isLive (e : Entry) : Bool := e.value ≠ 0 && e.value ≠ btHashmapTombstone

/-- `_hm_probe`. -/
def hmProbe (key : UInt64) (i cap : ℕ) : ℕ := ((key.toNat + i) % 2 ^ 64) &&& (cap - 1)

/-- `calloc(n, sizeof(bt_hashmap_entry_t))` fails when the memory is short, and when the size does
not fit a `size_t`. -/
def callocFits (n : ℕ) : Bool := n * 16 < 2 ^ 64

/-- The table that `calloc` returns. -/
def zeroed : ℕ → Entry := fun _ => ⟨0, 0⟩

/-- Decrement of a `size_t`. -/
def sizeDec (n : ℕ) : ℕ := (n + (2 ^ 64 - 1)) % 2 ^ 64

/-! ### Initialisation -/

/-- The loop that rounds the capacity up.  Shifting past the top bit gives zero, and then the loop
does not end; `fuel` bounds its rounds. -/
def roundUp : ℕ → ℕ → ℕ → Option ℕ
  | 0, _, _ => none
  | fuel + 1, cap, capacity =>
      if cap < capacity then roundUp fuel (cap * 2 % 2 ^ 64) capacity else some cap

/-- `bt_hashmap_init`: `none` if it does not return, `some none` if it returns `-1`. -/
def btHashmapInit (callocOk : Bool) (capacity : ℕ) : Option (Option Map) :=
  if capacity < 8 then some none
  else
    match roundUp 64 8 capacity with
    | none => none
    | some cap =>
        if callocOk && callocFits cap then
          some (some ⟨zeroed, cap, 0, 0, 0⟩)
        else some none

/-! ### Lookup and removal -/

/-- The search of `bt_hashmap_get` and `bt_hashmap_remove`: it stops at an empty slot, and at a live
one with the key. -/
def findSlot (m : Map) (key : UInt64) : Option ℕ :=
  (firstSome m.capacity fun i =>
    let idx := hmProbe key i m.capacity
    if (m.entries idx).value = 0 then some none
    else if (m.entries idx).value ≠ btHashmapTombstone ∧ (m.entries idx).key = key then
      some (some idx)
    else none).join

/-- `bt_hashmap_get`. -/
def btHashmapGet (m : Map) (key : UInt64) : UInt64 :=
  match findSlot m key with
  | none => 0
  | some idx => (m.entries idx).value

/-- The write of `bt_hashmap_remove`. -/
def erase (m : Map) (idx : ℕ) : Map :=
  { m with
    entries := Function.update m.entries idx ⟨(m.entries idx).key, btHashmapTombstone⟩
    count := sizeDec m.count
    tombstones := m.tombstones + 1 }

/-- `bt_hashmap_remove`. -/
def btHashmapRemove (m : Map) (key : UInt64) : Map × ℤ :=
  match findSlot m key with
  | none => (m, -1)
  | some idx => (erase m idx, 0)

/-- `bt_hashmap_size`. -/
def btHashmapSize (m : Map) : ℕ := m.count

/-- `bt_hashmap_clear`. -/
def btHashmapClear (m : Map) : Map := { m with entries := zeroed, count := 0, tombstones := 0 }

/-! ### Insertion and resize -/

/-- The search of `bt_hashmap_put`: it stops at the first slot that is empty or erased, and at a
live one with the key, which it reports without a slot. -/
def putSlot (m : Map) (key : UInt64) : Option (Option ℕ) :=
  firstSome m.capacity fun i =>
    let idx := hmProbe key i m.capacity
    if (m.entries idx).value = 0 ∨ (m.entries idx).value = btHashmapTombstone then some (some idx)
    else if (m.entries idx).key = key then some none
    else none

/-- The write of `bt_hashmap_put`.  The value is tested for the marker after it has been written, so
reusing an erased slot leaves the count of erased slots as it is. -/
def store (m : Map) (idx : ℕ) (key value : UInt64) : Map :=
  let m' := { m with
    entries := Function.update m.entries idx ⟨key, value⟩
    count := m.count + 1 }
  if (m'.entries idx).value = btHashmapTombstone then
    { m' with tombstones := sizeDec m'.tombstones }
  else m'

/-- The loop of `bt_hashmap_put`. -/
def insert (m : Map) (key value : UInt64) : Map × ℤ :=
  match putSlot m key with
  | some (some idx) => (store m idx key value, 0)
  | some none => (m, -1)
  | none => (m, -1)

/-- The loop of `_hm_resize` over the first `n` slots of the old table. -/
def rehash (put : Map → UInt64 → UInt64 → Option (Map × ℤ)) (old : ℕ → Entry) :
    ℕ → Map → Option Map
  | 0, m => some m
  | n + 1, m =>
      match rehash put old n m with
      | none => none
      | some m' =>
          if (old n).isLive then (put m' (old n).key (old n).value).map Prod.fst else some m'

/-- `_hm_resize`.  `callocOk` says which of the allocations succeed. -/
def hmResize (callocOk : ℕ → Bool) (put : Map → UInt64 → UInt64 → Option (Map × ℤ)) (m : Map)
    (newCap : ℕ) : Option (Map × ℤ) :=
  if callocOk m.resizes && callocFits newCap then
    (rehash put m.entries m.capacity ⟨zeroed, newCap, 0, 0, m.resizes + 1⟩).map fun m' => (m', 0)
  else some ({ m with resizes := m.resizes + 1 }, -1)

/-- The load test of `bt_hashmap_put`.  A table that `calloc` has returned is small enough for the
products not to overflow. -/
def overloaded (m : Map) : Bool :=
  m.capacity * btHashmapLoadFactorNum ≤ (m.count + m.tombstones) * btHashmapLoadFactorDen

/-- `bt_hashmap_put`, with at most `depth` calls of it open at a time. -/
def btHashmapPut (callocOk : ℕ → Bool) : ℕ → Map → UInt64 → UInt64 → Option (Map × ℤ)
  | 0, _, _, _ => none
  | depth + 1, m, key, value =>
      if value = 0 then some (m, -1)
      else if overloaded m then
        match hmResize callocOk (btHashmapPut callocOk depth) m (m.capacity * 2) with
        | none => none
        | some (m', rc) => if rc ≠ 0 then some (m', -1) else some (insert m' key value)
      else some (insert m key value)

/-! ### Using the map -/

/-- A call of one of the functions. -/
inductive Op
  | put (key : UInt64) (value : Value)
  | get (key : UInt64)
  | remove (key : UInt64)
  | size
  | clear

/-- What a call returns; for a put also whether its resize ran out of memory, and how many resizes
it made. -/
inductive Result
  | put (code : ℤ) (noMemory : Bool) (resizes : ℕ)
  | get (value : UInt64)
  | remove (code : ℤ)
  | size (n : ℕ)
  | clear
  deriving DecidableEq

/-- A put would resize the table, and the allocation fails. -/
def resizeFails (callocOk : ℕ → Bool) (m : Map) : Bool :=
  overloaded m && !(callocOk m.resizes && callocFits (m.capacity * 2))

/-- One call. -/
def step (callocOk : ℕ → Bool) (depth : ℕ) (m : Map) : Op → Option (Map × Result)
  | .put key value =>
      (btHashmapPut callocOk depth m key value.bits).map fun r =>
        (r.1, .put r.2 (resizeFails callocOk m) (r.1.resizes - m.resizes))
  | .get key => some (m, .get (btHashmapGet m key))
  | .remove key => some ((btHashmapRemove m key).1, .remove (btHashmapRemove m key).2)
  | .size => some (m, .size (btHashmapSize m))
  | .clear => some (btHashmapClear m, .clear)

end Hashmap
