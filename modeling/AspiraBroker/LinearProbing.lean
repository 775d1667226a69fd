/-
**Open addressing with linear probing.**

A table of `n` slots keeps the binding of a key in the first slot that was free when it was put
there, counted from the key's home slot and round the end of the table; an erased binding leaves its
slot dead, so that searches still pass it.  What makes searches correct is that no slot between a
key's home and its binding is empty.  This module says so for slots of any keys and values, and
shows that putting a binding into a free slot and killing one keep it.

Main definitions:

* `Probing.Cell` — a slot: empty, dead, or full;
* `Probing.place` — the slot at a distance from the home of a key;
* `Probing.Chained` — each key is bound in one slot at most, and no slot before it is empty;
* `Probing.Binds` — the key is bound to the value somewhere in the table.

Main results:

* `Probing.Chained.put`, `Probing.Chained.kill` — the two updates keep the chains;
* `Probing.binds_put_iff`, `Probing.Chained.binds_kill_iff` — what they do to the bindings;
* `Probing.exists_empty` — a table that is not all used has an empty slot on every key's way.
-/

import AspiraBroker.RingIndex
import AspiraBroker.SlotCount

set_option relaxedAutoImplicit false
set_option autoImplicit false

namespace Probing

universe u v

variable {K : Type u} {V : Type v}

/-! ### Slots and the way to them -/

/-- A slot of the table. -/
inductive Cell (K : Type u) (V : Type v)
  | empty
  | dead
  | full (key : K) (value : V)

/-- The slot holds a binding. -/
def Cell.isFull : Cell K V → Bool
  | .full _ _ => true
  | _ => false

/-- The slot holds a binding or has held one. -/
def Cell.isUsed : Cell K V → Bool
  | .empty => false
  | _ => true

/-- The slot at distance `d` from the home of the key. -/
def place (home : K → ℕ) (n : ℕ) (k : K) (d : ℕ) : ℕ := (home k + d) % n

variable {home : K → ℕ} {n : ℕ} {t : ℕ → Cell K V}

theorem place_lt (hn : 0 < n) (k : K) (d : ℕ) : place home n k d < n := Nat.mod_lt _ hn

/-- Different distances lead to different slots. -/
theorem place_inj {k : K} {d e : ℕ} (hd : d < n) (he : e < n)
    (h : place home n k d = place home n k e) : d = e := by
  rcases Nat.le_total d e with hle | hle
  · have := Ring.index_inj (by omega) (by omega : home k + e < home k + d + n) h
    omega
  · have := Ring.index_inj (by omega) (by omega : home k + d < home k + e + n) h.symm
    omega

/-- Every slot is at some distance. -/
theorem exists_place (home : K → ℕ) {i : ℕ} (hi : i < n) (k : K) :
    ∃ d < n, place home n k d = i := by
  have hn : 0 < n := by omega
  have hmod := Nat.mod_lt (home k) hn
  have hdiv := Nat.div_add_mod (home k) n
  rcases Nat.lt_or_ge i (home k % n) with hlt | hge
  · refine ⟨i + n - home k % n, by omega, ?_⟩
    have heq : home k + (i + n - home k % n) = i + n * (home k / n + 1) := by
      rw [Nat.mul_add]
      omega
    rw [place, heq, Nat.add_mul_mod_self_left, Nat.mod_eq_of_lt hi]
  · refine ⟨i - home k % n, by omega, ?_⟩
    have heq : home k + (i - home k % n) = i + n * (home k / n) := by omega
    rw [place, heq, Nat.add_mul_mod_self_left, Nat.mod_eq_of_lt hi]

/-! ### Chains and bindings -/

/-- Each key is bound in one slot at most, and no slot between its home and that slot is empty. -/
structure Chained (home : K → ℕ) (n : ℕ) (t : ℕ → Cell K V) : Prop where
  unique : ∀ {i j : ℕ} {k : K} {v w : V}, i < n → j < n → t i = .full k v → t j = .full k w → i = j
  chain : ∀ {d : ℕ} {k : K} {v : V}, d < n → t (place home n k d) = .full k v →
    ∀ e < d, t (place home n k e) ≠ .empty

/-- The key is bound to the value. -/
def Binds (n : ℕ) (t : ℕ → Cell K V) (k : K) (v : V) : Prop := ∃ i < n, t i = .full k v

/-- A table without bindings is chained. -/
theorem chained_of_no_binding (h : ∀ i < n, (t i).isFull = false) : Chained home n t where
  unique := fun hi _ hti _ => by
    have := h _ hi
    rw [hti] at this
    cases this
  chain := fun {d k v} hd htd e he => by
    have hlt : place home n k d < n := place_lt (by omega) k d
    have := h _ hlt
    rw [htd] at this
    cases this

/-! ### The two updates -/

/-- **Putting a binding** of an unbound key into a slot keeps the chains, if no slot on the way to
it is empty. -/
theorem Chained.put (h : Chained home n t) {k : K} {d : ℕ} (hd : d < n)
    (hway : ∀ e < d, t (place home n k e) ≠ .empty) (hunbound : ∀ v, ¬ Binds n t k v) (v : V) :
    Chained home n (Function.update t (place home n k d) (.full k v)) where
  unique := by
    intro i j k' v' w' hi hj hti htj
    have key : ∀ {i : ℕ} {w : V}, i < n → i ≠ place home n k d →
        Function.update t (place home n k d) (.full k v) i = .full k w → False := by
      intro i w hi hne hti
      rw [Function.update_of_ne hne] at hti
      exact hunbound w ⟨i, hi, hti⟩
    by_cases hip : i = place home n k d
    · by_cases hjp : j = place home n k d
      · rw [hip, hjp]
      · rw [hip, Function.update_self] at hti
        cases hti
        exact (key hj hjp htj).elim
    · by_cases hjp : j = place home n k d
      · rw [hjp, Function.update_self] at htj
        cases htj
        exact (key hi hip hti).elim
      · rw [Function.update_of_ne hip] at hti
        rw [Function.update_of_ne hjp] at htj
        exact h.unique hi hj hti htj
  chain := by
    intro d' k' v' hd' htd e he
    by_cases hep : place home n k' e = place home n k d
    · rw [hep, Function.update_self]
      intro hc
      cases hc
    · rw [Function.update_of_ne hep]
      by_cases hdp : place home n k' d' = place home n k d
      · -- the new binding itself
        rw [hdp, Function.update_self] at htd
        cases htd
        obtain rfl := place_inj hd' hd hdp
        exact hway e he
      · rw [Function.update_of_ne hdp] at htd
        exact h.chain hd' htd e he

/-- **Killing a binding** keeps the chains. -/
theorem Chained.kill (h : Chained home n t) (i : ℕ) :
    Chained home n (Function.update t i .dead) where
  unique := by
    intro a b k v w ha hb hta htb
    have hai : a ≠ i := by
      rintro rfl
      simp at hta
    have hbi : b ≠ i := by
      rintro rfl
      simp at htb
    rw [Function.update_of_ne hai] at hta
    rw [Function.update_of_ne hbi] at htb
    exact h.unique ha hb hta htb
  chain := by
    intro d k v hd htd e he
    by_cases hei : place home n k e = i
    · rw [hei, Function.update_self]
      intro hc
      cases hc
    · rw [Function.update_of_ne hei]
      have hdi : place home n k d ≠ i := by
        intro hdi
        rw [hdi, Function.update_self] at htd
        cases htd
      rw [Function.update_of_ne hdi] at htd
      exact h.chain hd htd e he

/-- Putting a binding of an unbound key into a slot without one binds exactly that key. -/
theorem binds_put_iff {i : ℕ} (hi : i < n) (hfree : (t i).isFull = false) {k : K}
    (hunbound : ∀ v, ¬ Binds n t k v) {v : V} {k' : K} {w : V} :
    Binds n (Function.update t i (.full k v)) k' w ↔ k' = k ∧ w = v ∨ k' ≠ k ∧ Binds n t k' w := by
  constructor
  · rintro ⟨j, hj, htj⟩
    by_cases hji : j = i
    · rw [hji, Function.update_self] at htj
      cases htj
      exact Or.inl ⟨rfl, rfl⟩
    · rw [Function.update_of_ne hji] at htj
      refine Or.inr ⟨?_, j, hj, htj⟩
      rintro rfl
      exact hunbound w ⟨j, hj, htj⟩
  · rintro (⟨rfl, rfl⟩ | ⟨-, j, hj, htj⟩)
    · exact ⟨i, hi, Function.update_self ..⟩
    · have hji : j ≠ i := by
        rintro rfl
        rw [htj] at hfree
        cases hfree
      exact ⟨j, hj, by rw [Function.update_of_ne hji]; exact htj⟩

/-- Killing the binding of a key unbinds exactly that key. -/
theorem Chained.binds_kill_iff (h : Chained home n t) {i : ℕ} (hi : i < n) {k : K} {v : V}
    (hti : t i = .full k v) {k' : K} {w : V} :
    Binds n (Function.update t i .dead) k' w ↔ k' ≠ k ∧ Binds n t k' w := by
  constructor
  · rintro ⟨j, hj, htj⟩
    have hji : j ≠ i := by
      rintro rfl
      simp at htj
    rw [Function.update_of_ne hji] at htj
    refine ⟨?_, j, hj, htj⟩
    rintro rfl
    exact hji (h.unique hj hi htj hti)
  · rintro ⟨hne, j, hj, htj⟩
    have hji : j ≠ i := by
      rintro rfl
      rw [hti] at htj
      cases htj
      exact hne rfl
    exact ⟨j, hj, by rw [Function.update_of_ne hji]; exact htj⟩

/-! ### Empty slots -/

/-- **A table that is not all used has an empty slot on every key's way.** -/
theorem exists_empty (home : K → ℕ) (h : Counting.count Cell.isUsed n t < n) (k : K) :
    ∃ d < n, t (place home n k d) = .empty := by
  by_contra hall
  have hfull : Counting.count Cell.isUsed n t = n := by
    rw [Counting.count, Finset.filter_true_of_mem, Finset.card_range]
    intro i hi
    obtain ⟨d, hd, rfl⟩ := exists_place home (Finset.mem_range.1 hi) k
    cases hti : t (place home n k d) with
    | empty => exact absurd ⟨d, hd, hti⟩ hall
    | dead => rfl
    | full k v => rfl
  omega

end Probing
