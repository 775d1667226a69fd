/-
**Words and structs in a memory of bytes.**

A memory is a function from addresses to bytes.  A word of `n` bytes is stored with its least
significant byte first: byte `i` of the number `v` is `v / 256 ^ i` modulo 256.  What was stored is
loaded again, and a store changes nothing outside of its bytes; so two stores or loads whose bytes
do not overlap have nothing to do with each other.  A store that changes nothing is one of the
number that was there before.

A struct is a list of fields, each with a size and an alignment.  The fields are placed in their
order, each one at the next multiple of its alignment.

Main definitions:

* `ByteMemory.bytesOf`, `ByteMemory.ofBytes` — the bytes of a number, and the number of some bytes;
* `ByteMemory.storeWord`, `ByteMemory.loadWord` — words of 64 bits;
* `ByteMemory.Field`, `ByteMemory.offsetof` — the fields of a struct and where they start.

Main results:

* `ByteMemory.ofBytes_bytesOf`, `ByteMemory.bytesOf_ofBytes` — **the two are inverse to each
  other**;
* `ByteMemory.loadWord_storeWord`, `ByteMemory.loadWord_fill_of_apart` — **what was stored is
  loaded, and what is written elsewhere does not matter**;
* `ByteMemory.storeWord_eq_self` — storing what is there changes nothing;
* `ByteMemory.offsetof_apart` — **the fields of a struct do not overlap**.
-/

import AspiraBroker.BumpPointer
import AspiraBroker.RingWindow
import Mathlib.Data.Nat.Digits.Lemmas

set_option relaxedAutoImplicit false
set_option autoImplicit false

namespace ByteMemory

open AlignedCells BumpPointer Ring

/-! ### Bytes of numbers -/

/-- The `n` lowest bytes of a number, the lowest one first. -/
def bytesOf (n v : ℕ) : List UInt8 := (List.range n).map fun i => UInt8.ofNat (v / 256 ^ i)

/-- The number with the given bytes, the lowest one first. -/
def ofBytes (bs : List UInt8) : ℕ := Nat.ofDigits 256 (bs.map UInt8.toNat)

@[simp] theorem length_bytesOf (n v : ℕ) : (bytesOf n v).length = n := by simp [bytesOf]

theorem bytesOf_succ (n v : ℕ) :
    bytesOf (n + 1) v = bytesOf n v ++ [UInt8.ofNat (v / 256 ^ n)] := by
  simp [bytesOf, List.range_succ]

/-- The bytes of a number give it back, as far as they go. -/
theorem ofBytes_bytesOf (n v : ℕ) : ofBytes (bytesOf n v) = v % 256 ^ n := by
  induction n with
  | zero => rw [Nat.pow_zero, Nat.mod_one]; rfl
  | succ n ih =>
      unfold ofBytes at ih ⊢
      rw [bytesOf_succ, List.map_append, Nat.ofDigits_append, ih, Nat.mod_pow_succ]
      simp

theorem toNat_lt_of_mem (bs : List UInt8) : ∀ x ∈ bs.map UInt8.toNat, x < 256 := by
  intro x hx
  obtain ⟨b, -, rfl⟩ := List.mem_map.1 hx
  exact b.toNat_lt

theorem ofBytes_lt (bs : List UInt8) : ofBytes bs < 256 ^ bs.length := by
  have hlt := Nat.ofDigits_lt_base_pow_length (by decide) (toNat_lt_of_mem bs)
  rwa [List.length_map] at hlt

/-- Equally many bytes of the same number are the same bytes. -/
theorem ofBytes_injective {bs cs : List UInt8} (hlen : bs.length = cs.length)
    (h : ofBytes bs = ofBytes cs) : bs = cs := by
  refine List.map_injective_iff.2 (fun a b hab => UInt8.toNat_inj.1 hab) ?_
  refine Nat.ofDigits_inj_of_len_eq (by decide) ?_ (toNat_lt_of_mem bs) (toNat_lt_of_mem cs) h
  rw [List.length_map, List.length_map, hlen]

/-- The number of some bytes has them as its bytes. -/
theorem bytesOf_ofBytes (bs : List UInt8) : bytesOf bs.length (ofBytes bs) = bs := by
  refine ofBytes_injective (length_bytesOf _ _) ?_
  rw [ofBytes_bytesOf, Nat.mod_eq_of_lt (ofBytes_lt bs)]

/-! ### Words of 64 bits -/

/-- A load of eight bytes. -/
def loadWord (m : ℕ → UInt8) (a : ℕ) : UInt64 := UInt64.ofNat (ofBytes (slice m a 8))

/-- A store of eight bytes. -/
def storeWord (m : ℕ → UInt8) (a : ℕ) (v : UInt64) : ℕ → UInt8 := fill m a (bytesOf 8 v.toNat)

section Words

variable {m m' : ℕ → UInt8} {a b : ℕ} {v : UInt64}

/-- A write changes nothing outside of its bytes. -/
theorem fill_of_notMem {bs : List UInt8} (h : b ∉ bytes a bs.length) : fill m a bs b = m b := by
  rcases Nat.lt_or_ge b a with hlt | hge
  · exact fill_of_lt hlt
  · refine fill_of_le (Nat.le_of_not_lt fun hlt => h ⟨hge, hlt⟩)

/-- A load depends on its eight bytes. -/
theorem loadWord_congr (h : ∀ x ∈ bytes a 8, m x = m' x) : loadWord m a = loadWord m' a := by
  have hslice : slice m a 8 = slice m' a 8 := by
    refine List.map_congr_left fun i hi => h (a + i) ⟨Nat.le_add_right a i, ?_⟩
    exact Nat.add_lt_add_left (List.mem_range.1 hi) a
  rw [loadWord, loadWord, hslice]

/-- What is written elsewhere does not matter for a load. -/
theorem loadWord_fill_of_apart {bs : List UInt8} (h : Apart a bs.length b 8) :
    loadWord (fill m a bs) b = loadWord m b := by
  refine loadWord_congr fun x hx => fill_of_notMem fun hx' => ?_
  exact Set.disjoint_left.1 h.disjoint hx' hx

theorem loadWord_storeWord_of_apart (h : Apart a 8 b 8) :
    loadWord (storeWord m a v) b = loadWord m b :=
  loadWord_fill_of_apart (by rwa [length_bytesOf])

theorem storeWord_of_notMem (h : b ∉ bytes a 8) : storeWord m a v b = m b :=
  fill_of_notMem (by rwa [length_bytesOf])

/-- **What was stored is loaded.** -/
theorem loadWord_storeWord : loadWord (storeWord m a v) a = v := by
  have hslice : slice (storeWord m a v) a 8 = bytesOf 8 v.toNat := by
    have hlen : (bytesOf 8 v.toNat).length = 8 := length_bytesOf 8 v.toNat
    rw [storeWord, slice_fill hlen.ge, List.take_of_length_le hlen.le]
  have hlt : v.toNat < 256 ^ 8 := v.toNat_lt
  rw [loadWord, hslice, ofBytes_bytesOf, Nat.mod_eq_of_lt hlt, UInt64.ofNat_toNat]

/-- The bytes that are there are those of the word that is loaded. -/
theorem bytesOf_loadWord (m : ℕ → UInt8) (a : ℕ) :
    bytesOf 8 (loadWord m a).toNat = slice m a 8 := by
  have hlen : (slice m a 8).length = 8 := length_slice m a 8
  have hlt : ofBytes (slice m a 8) < 2 ^ 64 := by
    have hbound := ofBytes_lt (slice m a 8)
    rwa [hlen] at hbound
  rw [loadWord, UInt64.toNat_ofNat', Nat.mod_eq_of_lt hlt]
  have hbytes := bytesOf_ofBytes (slice m a 8)
  rwa [hlen] at hbytes

/-- **Storing what is there changes nothing.** -/
theorem storeWord_eq_self (h : loadWord m a = v) : storeWord m a v = m := by
  subst h
  funext x
  by_cases hx : x ∈ bytes a 8
  · obtain ⟨i, rfl⟩ := Nat.exists_eq_add_of_le hx.1
    have hi : i < 8 := Nat.lt_of_add_lt_add_left hx.2
    rw [storeWord, bytesOf_loadWord, fill_add (by rwa [length_slice])]
    simp [slice]
  · exact storeWord_of_notMem hx

end Words

/-! ### Structs -/

/-- A field of `size` bytes that is aligned to `2 ^ align`. -/
structure Field where
  size : ℕ
  align : ℕ

/-- Where field `i` starts, if the fields are placed from `o` on. -/
def offsetFrom (o : ℕ) : List Field → ℕ → ℕ
  | [], _ => o
  | f :: _, 0 => roundUp f.align o
  | f :: fs, i + 1 => offsetFrom (roundUp f.align o + f.size) fs i

/-- Where field `i` of a struct starts. -/
def offsetof (fs : List Field) (i : ℕ) : ℕ := offsetFrom 0 fs i

section Structs

variable {fs : List Field} {f : Field} {i j : ℕ}

theorem le_offsetFrom (o : ℕ) (fs : List Field) (i : ℕ) : o ≤ offsetFrom o fs i := by
  induction fs generalizing o i with
  | nil => rw [offsetFrom]
  | cons f fs ih =>
      have hround := le_roundUp f.align o
      cases i with
      | zero => exact hround
      | succ i => exact (hround.trans (Nat.le_add_right _ _)).trans (ih _ i)

/-- A field ends where a later one starts, or before. -/
theorem offsetFrom_add_size_le (o : ℕ) (hf : fs[i]? = some f) (hij : i < j) :
    offsetFrom o fs i + f.size ≤ offsetFrom o fs j := by
  induction fs generalizing o i j with
  | nil => cases hf
  | cons g fs ih =>
      obtain ⟨j, rfl⟩ := Nat.exists_eq_succ_of_ne_zero (Nat.ne_zero_of_lt hij)
      cases i with
      | zero =>
          obtain rfl : g = f := Option.some.inj hf
          exact le_offsetFrom _ fs j
      | succ i => exact ih _ hf (Nat.lt_of_succ_lt_succ hij)

/-- **The fields of a struct do not overlap.** -/
theorem offsetof_apart {g : Field} (hf : fs[i]? = some f) (hg : fs[j]? = some g) (hij : i ≠ j) :
    Apart (offsetof fs i) f.size (offsetof fs j) g.size := by
  rcases Nat.lt_or_gt_of_ne hij with hlt | hlt
  · exact .inl (offsetFrom_add_size_le 0 hf hlt)
  · exact .inr (offsetFrom_add_size_le 0 hg hlt)

end Structs

end ByteMemory
