/-
**What a ring buffer holds between its two cursors.**

A ring of `n` slots is an array read and written around its end.  The elements it holds from a slot
on are its *window*: `len` elements, the slot number taken modulo `n`.  Copies in and out of the
ring are copies of contiguous pieces of the array, so a copy out is one or two slices and a copy
in has to end at the last slot.  This module relates slices to windows: what a window of the ring
is after elements were taken from its front, and after a slice was written behind its end.

Main definitions:

* `Ring.slice`, `Ring.fill` — a contiguous piece of an array, read and written;
* `Ring.window` — the elements of a ring from a slot on.

Main results:

* `Ring.slice_fill`, `Ring.slice_fill_append` — what was copied in is read back, and behind it what
  stood there before;
* `Ring.slice_append_slice` — **a wrapped copy reads a window**;
* `Ring.drop_window`, `Ring.take_window` — taking elements from the front;
* `Ring.window_fill`, `Ring.window_update` — **a slice or a single element written behind a window
  extends it**, and overwrites nothing of it, as long as the ring has room.
-/

import Mathlib.Data.List.Basic
import Mathlib.Data.List.Range
import AspiraBroker.RingIndex

set_option relaxedAutoImplicit false
set_option autoImplicit false

namespace Ring

universe u

variable {α : Type u}

/-- A table over `a + b` indices is the table over the first `a`, followed by that over the rest. -/
theorem map_range_add (f : ℕ → α) (a b : ℕ) :
    (List.range (a + b)).map f = (List.range a).map f ++ (List.range b).map fun i => f (a + i) := by
  rw [List.range_add, List.map_append, List.map_map]
  rfl

/-! ### Slices -/

/-- The `len` elements of an array from position `pos` on. -/
def slice (buf : ℕ → α) (pos len : ℕ) : List α := (List.range len).map fun i => buf (pos + i)

/-- The array after `xs` was copied to position `pos`. -/
def fill (buf : ℕ → α) (pos : ℕ) (xs : List α) : ℕ → α := fun j =>
  if pos ≤ j then xs.getD (j - pos) (buf j) else buf j

@[simp] theorem length_slice (buf : ℕ → α) (pos len : ℕ) : (slice buf pos len).length = len := by
  simp [slice]

/-- A slice is a shorter one, followed by the slice behind it. -/
theorem slice_add (buf : ℕ → α) (pos len k : ℕ) :
    slice buf pos (len + k) = slice buf pos len ++ slice buf (pos + len) k := by
  simp only [slice, map_range_add, Nat.add_assoc]

theorem slice_append_rest {buf : ℕ → α} {len k : ℕ} (h : k ≤ len) :
    slice buf 0 k ++ slice buf k (len - k) = slice buf 0 len := by
  have hsplit := slice_add buf 0 k (len - k)
  rw [Nat.zero_add, Nat.add_sub_cancel' h] at hsplit
  exact hsplit.symm

theorem slice_succ (buf : ℕ → α) (pos len : ℕ) :
    slice buf pos (len + 1) = buf pos :: slice buf (pos + 1) len := by
  rw [Nat.add_comm, slice_add]
  rfl

theorem fill_of_lt {buf : ℕ → α} {pos j : ℕ} {xs : List α} (h : j < pos) :
    fill buf pos xs j = buf j := by
  simp [fill, Nat.not_le.2 h]

theorem fill_of_le {buf : ℕ → α} {pos j : ℕ} {xs : List α} (h : pos + xs.length ≤ j) :
    fill buf pos xs j = buf j := by
  have hj : xs.length ≤ j - pos := by omega
  simp [fill, hj]

theorem fill_add {buf : ℕ → α} {pos i : ℕ} {xs : List α} (h : i < xs.length) :
    fill buf pos xs (pos + i) = xs[i] := by
  simp [fill, h]

/-- What was copied in is read back. -/
theorem slice_fill {buf : ℕ → α} {pos k : ℕ} {xs : List α} (h : k ≤ xs.length) :
    slice (fill buf pos xs) pos k = xs.take k := by
  refine List.ext_getElem (by simp [h]) fun i h₁ _ => ?_
  have hi : i < k := by simpa using h₁
  simp only [slice, List.getElem_map, List.getElem_range, List.getElem_take]
  exact fill_add (by omega)

/-- A piece of what was copied to the start of an array. -/
theorem slice_fill_eq {buf : ℕ → α} {pos k : ℕ} {xs : List α} (h : pos + k ≤ xs.length) :
    slice (fill buf 0 xs) pos k = (xs.drop pos).take k := by
  have hall : slice (fill buf 0 xs) 0 (pos + k) = xs.take (pos + k) := slice_fill h
  rw [slice_add, Nat.zero_add] at hall
  have hdrop := congrArg (List.drop pos) hall
  rwa [List.drop_left' (length_slice _ _ _), ← List.take_drop] at hdrop

/-- A piece that goes on behind what was copied in, with what stood there before. -/
theorem slice_fill_append {buf : ℕ → α} {pos k : ℕ} {xs : List α} (hpos : pos ≤ xs.length)
    (hk : xs.length ≤ pos + k) :
    slice (fill buf 0 xs) pos k = xs.drop pos ++ slice buf xs.length (pos + k - xs.length) := by
  obtain ⟨n, hn⟩ := Nat.exists_eq_add_of_le hpos
  obtain ⟨m, hm⟩ := Nat.exists_eq_add_of_le hk
  obtain rfl : k = n + m := by omega
  rw [slice_add, slice_fill_eq (by omega), List.take_of_length_le (by simp; omega), ← hn]
  congr 1
  have hrest : pos + (n + m) - xs.length = m := by omega
  rw [hrest]
  refine List.map_congr_left fun i _ => fill_of_le (by omega)

/-- Within what was copied in, what stood there before does not show. -/
theorem slice_fill_congr {buf buf' : ℕ → α} {pos k : ℕ} {xs : List α} (h : pos + k ≤ xs.length) :
    slice (fill buf 0 xs) pos k = slice (fill buf' 0 xs) pos k := by
  rw [slice_fill_eq h, slice_fill_eq h]

/-- A piece of a slice is a slice. -/
theorem take_drop_slice {buf : ℕ → α} {n pos k : ℕ} (h : pos + k ≤ n) :
    ((slice buf 0 n).drop pos).take k = slice buf pos k := by
  obtain ⟨m, rfl⟩ := Nat.exists_eq_add_of_le h
  rw [slice_add, slice_add, Nat.zero_add, List.append_assoc, List.drop_left' (length_slice _ _ _),
    List.take_left' (length_slice _ _ _)]

/-! ### Windows -/

/-- The `len` elements that a ring of `n` slots holds from slot `head` on. -/
def window (n : ℕ) (buf : ℕ → α) (head len : ℕ) : List α :=
  (List.range len).map fun i => buf ((head + i) % n)

variable {n : ℕ} {buf buf' : ℕ → α} {head len : ℕ}

@[simp] theorem length_window : (window n buf head len).length = len := by
  simp [window]

@[simp] theorem window_zero : window n buf head 0 = [] := rfl

/-- Two arrays that agree on the slots of a window have that window in common. -/
theorem window_congr (h : ∀ i < len, buf ((head + i) % n) = buf' ((head + i) % n)) :
    window n buf head len = window n buf' head len := by
  refine List.map_congr_left fun i hi => h i (List.mem_range.1 hi)

/-- Only the slot of the head matters, not how many laps lie behind it. -/
@[simp] theorem window_mod_head : window n buf (head % n) len = window n buf head len := by
  simp [window, Nat.mod_add_mod]

/-- A window is a shorter one, followed by the window behind it. -/
theorem window_add (k : ℕ) :
    window n buf head (len + k) = window n buf head len ++ window n buf (head + len) k := by
  simp only [window, map_range_add, Nat.add_assoc]

theorem take_window {k : ℕ} (h : k ≤ len) :
    (window n buf head len).take k = window n buf head k := by
  obtain ⟨d, rfl⟩ := Nat.exists_eq_add_of_le h
  rw [window_add, List.take_left' length_window]

theorem drop_window {k : ℕ} (h : k ≤ len) :
    (window n buf head len).drop k = window n buf (head + k) (len - k) := by
  obtain ⟨d, rfl⟩ := Nat.exists_eq_add_of_le h
  rw [window_add, List.drop_left' length_window, Nat.add_sub_cancel_left]

/-! ### Copies out of the ring and into it -/

/-- Up to the end of the array a window is a slice. -/
theorem window_eq_slice (h : head + len ≤ n) : window n buf head len = slice buf head len := by
  refine List.map_congr_left fun i hi => ?_
  have hlt : head + i < n := by
    have := List.mem_range.1 hi
    omega
  rw [Nat.mod_eq_of_lt hlt]

/-- **A wrapped copy reads a window**: the part up to the end of the array, then the rest from its
beginning. -/
theorem slice_append_slice (hhead : head ≤ n) (hwrap : n - head ≤ len) (hlen : len ≤ n) :
    slice buf head (n - head) ++ slice buf 0 (len - (n - head)) = window n buf head len := by
  obtain ⟨d, rfl⟩ := Nat.exists_eq_add_of_le hwrap
  have hend : head + (n - head) = n := by omega
  rw [window_add, window_eq_slice (by omega), hend, Nat.add_sub_cancel_left]
  congr 1
  -- behind the last slot the window continues at slot zero
  rw [← window_mod_head, Nat.mod_self, window_eq_slice (by omega)]

/-- **A slice written behind a window extends it.**  The write is contiguous, so it has to end at
the last slot at the latest, and the ring must have room for it. -/
theorem window_fill {xs : List α} (hroom : len + xs.length ≤ n)
    (hphys : (head + len) % n + xs.length ≤ n) :
    window n (fill buf ((head + len) % n) xs) head (len + xs.length)
      = window n buf head len ++ xs := by
  rw [window_add]
  congr 1
  · -- the slots of the window are less than a lap before the slots written
    refine window_congr fun i hi => ?_
    by_cases hlt : (head + i) % n < (head + len) % n
    · exact fill_of_lt hlt
    · refine fill_of_le ?_
      by_contra hin
      have hslot : (head + len) % n ≤ (head + i) % n := Nat.not_lt.1 hlt
      obtain ⟨d, hd⟩ := Nat.exists_eq_add_of_le hslot
      have hdlt : d < xs.length := by omega
      have hsame : (head + i) % n = (head + len + d) % n :=
        calc (head + i) % n = (head + i) % n % n := (Nat.mod_mod _ _).symm
          _ = ((head + len) % n + d) % n := by rw [hd]
          _ = (head + len + d) % n := Nat.mod_add_mod _ _ _
      have := index_inj (by omega) (by omega) hsame
      omega
  · rw [← window_mod_head, window_eq_slice hphys, slice_fill le_rfl, List.take_length]

/-- Writing one slot behind a window extends it by the element written. -/
theorem window_update {x : α} (hroom : len < n) :
    window n (Function.update buf ((head + len) % n) x) head (len + 1)
      = window n buf head len ++ [x] := by
  have hfill : Function.update buf ((head + len) % n) x = fill buf ((head + len) % n) [x] := by
    funext j
    rcases Nat.lt_trichotomy j ((head + len) % n) with hlt | rfl | hgt
    · rw [Function.update_of_ne hlt.ne, fill_of_lt hlt]
    · simp [fill]
    · rw [Function.update_of_ne hgt.ne', fill_of_le hgt]
  rw [hfill]
  exact window_fill hroom (Nat.mod_lt _ (by omega))

end Ring
