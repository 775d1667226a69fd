/-
**Rings whose slots are claimed before they are written.**

When several writers share a ring, a slot passes through three stages: it is claimed, and only its
claimant may write it; it is written, and holds the element it was claimed for; it is taken, and
may be claimed again a lap later.  Between claim and write the slot still holds what an earlier lap
left there.  This module states what such a ring holds, against the counters of
`AspiraBroker/RingIndex.lean`, and says what each of the three moves does to it.

Main definitions:

* `Ring.Slots` — each element from the first one not taken on either sits in its slot or has a
  claimant that has yet to write it, and the claimants have slots of their own.

Main results:

* `Ring.Slots.claim`, `Ring.Slots.write`, `Ring.Slots.take` — the three moves;
* `Ring.Slots.stored_of_no_writer` — a slot that nobody is about to write holds its element.
-/

import AspiraBroker.RingIndex

set_option relaxedAutoImplicit false
set_option autoImplicit false

namespace Ring

universe u v

variable {ι : Type v} {α : Type u}

/-- The state of a ring of `n` slots whose elements numbered below `lo` have been taken: `w p` is
the element that claimant `p` has yet to write, with its slot. -/
structure Slots (n : ℕ) (w : ι → Option (α × ℕ)) (xs : List α) (lo : ℕ) (buf : ℕ → α) : Prop where
  /-- A claimant is about to write an element that has not been taken. -/
  writer : ∀ p x t, w p = some (x, t) → ∃ c, lo ≤ c ∧ t = c % n ∧ xs[c]? = some x
  /-- No two claimants write the same slot. -/
  apart : ∀ p r x y t, w p = some (x, t) → w r = some (y, t) → p = r
  /-- An element that has not been taken is about to be written or has been. -/
  filled : ∀ c, lo ≤ c → c < xs.length → (∃ p x, w p = some (x, c % n)) ∨ Stored n buf xs c

namespace Slots

variable {n lo : ℕ} {w : ι → Option (α × ℕ)} {xs : List α} {buf : ℕ → α}

/-- An empty ring without claimants. -/
theorem empty (n : ℕ) (buf : ℕ → α) : Slots n (fun _ : ι => none) [] 0 buf where
  writer := by intro p x t h; simp at h
  apart := by intro p r x y t h; simp at h
  filled := by intro c _ hc; simp at hc

/-- The claimants are all that matters about the threads. -/
theorem congr {w' : ι → Option (α × ℕ)} (h : Slots n w xs lo buf) (hw : ∀ p, w' p = w p) :
    Slots n w' xs lo buf := by
  obtain rfl : w' = w := funext hw
  exact h

/-- A slot that nobody is about to write holds its element. -/
theorem stored_of_no_writer (h : Slots n w xs lo buf) {c : ℕ} (hlo : lo ≤ c) (hc : c < xs.length)
    (hno : ∀ p x, w p ≠ some (x, c % n)) : Stored n buf xs c := by
  rcases h.filled c hlo hc with ⟨p, x, hp⟩ | hs
  · exact absurd hp (hno p x)
  · exact hs

/-- **Taking** the first element, once nobody is about to write its slot. -/
theorem take (h : Slots n w xs lo buf) (hno : ∀ p x, w p ≠ some (x, lo % n)) :
    Slots n w xs (lo + 1) buf where
  writer := by
    intro p x t hp
    obtain ⟨c, hlo, rfl, hx⟩ := h.writer p x t hp
    refine ⟨c, lt_of_le_of_ne hlo ?_, rfl, hx⟩
    rintro rfl
    exact hno p x hp
  apart := h.apart
  filled := fun c hlo => h.filled c (Nat.le_of_succ_le hlo)

variable [DecidableEq ι]

/-- **Claiming** the next slot: no other claimant has it, because the elements not taken are less
than a lap. -/
theorem claim (h : Slots n w xs lo buf) (hroom : xs.length < lo + n) (hle : lo ≤ xs.length) {p : ι}
    (hp : w p = none) (x : α) :
    Slots n (Function.update w p (some (x, xs.length % n))) (xs ++ [x]) lo buf := by
  -- a claimant on the new slot would write an element a whole lap back
  have hnew : ∀ r y, w r ≠ some (y, xs.length % n) := by
    intro r y hr
    obtain ⟨c, hlo, ht, hy⟩ := h.writer r y _ hr
    have hc : c < xs.length := (List.getElem?_eq_some_iff.1 hy).1
    have := index_inj hc.le (by omega) ht.symm
    omega
  refine ⟨?_, ?_, ?_⟩
  · intro r y t hr
    by_cases hrp : r = p
    · subst hrp
      rw [Function.update_self] at hr
      obtain ⟨rfl, rfl⟩ : x = y ∧ xs.length % n = t := by simpa using hr
      exact ⟨xs.length, hle, rfl, by simp⟩
    · rw [Function.update_of_ne hrp] at hr
      obtain ⟨c, hlo, ht, hy⟩ := h.writer r y t hr
      refine ⟨c, hlo, ht, ?_⟩
      rw [List.getElem?_append_left (List.getElem?_eq_some_iff.1 hy).1]
      exact hy
  · intro r r' y z t hr hr'
    by_cases hrp : r = p <;> by_cases hrp' : r' = p
    · rw [hrp, hrp']
    · subst hrp
      rw [Function.update_self] at hr
      rw [Function.update_of_ne hrp'] at hr'
      obtain ⟨-, rfl⟩ : x = y ∧ xs.length % n = t := by simpa using hr
      exact absurd hr' (hnew r' z)
    · subst hrp'
      rw [Function.update_self] at hr'
      rw [Function.update_of_ne hrp] at hr
      obtain ⟨-, rfl⟩ : x = z ∧ xs.length % n = t := by simpa using hr'
      exact absurd hr (hnew r y)
    · rw [Function.update_of_ne hrp] at hr
      rw [Function.update_of_ne hrp'] at hr'
      exact h.apart r r' y z t hr hr'
  · intro c hlo hc
    rw [List.length_append, List.length_singleton] at hc
    rcases Nat.lt_succ_iff_lt_or_eq.1 hc with hc | rfl
    · rcases h.filled c hlo hc with ⟨r, y, hr⟩ | hs
      · by_cases hrp : r = p
        · rw [hrp, hp] at hr
          simp at hr
        · exact Or.inl ⟨r, y, by rw [Function.update_of_ne hrp]; exact hr⟩
      · exact Or.inr (hs.append [x])
    · exact Or.inl ⟨p, x, by simp⟩

/-- **Writing** a claimed slot stores its element and touches no other. -/
theorem write (h : Slots n w xs lo buf) (hroom : xs.length < lo + n) {p : ι} {x : α} {t : ℕ}
    (hp : w p = some (x, t)) :
    Slots n (Function.update w p none) xs lo (Function.update buf t x) := by
  have hother : ∀ r y t', Function.update w p none r = some (y, t') → w r = some (y, t') := by
    intro r y t' hr
    by_cases hrp : r = p
    · subst hrp; simp at hr
    · rwa [Function.update_of_ne hrp] at hr
  obtain ⟨c₀, hlo₀, rfl, hx⟩ := h.writer p x t hp
  have hc₀ : c₀ < xs.length := (List.getElem?_eq_some_iff.1 hx).1
  refine ⟨fun r y t' hr => h.writer r y t' (hother r y t' hr),
    fun r r' y z t' hr hr' => h.apart r r' y z t' (hother r y t' hr) (hother r' z t' hr'), ?_⟩
  intro c hlo hc
  by_cases hcc : c % n = c₀ % n
  · -- the slot just written is the slot of no other live element
    have hceq : c = c₀ := by
      rcases Nat.le_total c c₀ with hle | hle
      · exact index_inj hle (by omega) hcc
      · exact (index_inj hle (by omega) hcc.symm).symm
    subst hceq
    exact Or.inr (stored_update_self hx)
  · rcases h.filled c hlo hc with ⟨r, y, hr⟩ | hs
    · by_cases hrp : r = p
      · subst hrp
        rw [hp, Option.some.injEq, Prod.mk.injEq] at hr
        exact absurd hr.2.symm hcc
      · exact Or.inl ⟨r, y, by rw [Function.update_of_ne hrp]; exact hr⟩
    · exact Or.inr (hs.update_of_ne hcc x)

end Slots

end Ring
