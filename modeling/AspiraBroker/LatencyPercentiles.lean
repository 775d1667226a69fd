/-
**Percentiles of a sorted array.**

`bt_latency_percentiles` reads four elements of a sorted array, at the positions that it computes as
doubles: the number of samples times `0.50`, `0.95`, `0.99` and `0.999`, with the fraction dropped.
None of the last three factors is a double, and the product is rounded again.

The position is nevertheless exact.  The three doubles are below the factors, so no position is too
large, and so little below them that a product that should be an integer is rounded up to it.

Main definitions:

* `LatencyStats.btLatencyPercentiles` — the function; a read behind the array has no result;
* `LatencyStats.IsQuantile` — what the element is meant to be.

Main results:

* `LatencyStats.percentileIndex_eq` — **the computed position is the exact one**;
* `LatencyStats.IsQuantile.of_sorted` — what the exact position of a sorted array holds;
* `LatencyStats.percentiles_are_quantiles` — **the four results are quantiles of the samples**.
-/

import AspiraBroker.LatencyStats
import AspiraBroker.NearestRounding

set_option relaxedAutoImplicit false
set_option autoImplicit false

namespace LatencyStats

open Rounding

/-! ### The function -/

/-- What `bt_latency_percentiles` stores. -/
structure Percentiles where
  p50 : ℚ
  p95 : ℚ
  p99 : ℚ
  p999 : ℚ
  deriving DecidableEq

/-- `(size_t)((double)(n) * (p))`. -/
def percentileIndex (n : ℕ) (p : ℚ) : ℕ := ⌊binary64 (binary64 n * binary64 p)⌋.toNat

/-- `(double)percentile(arr, n, p)`; nothing if it reads behind the array. -/
def percentile (arr : List UInt64) (p : ℚ) : Option ℚ :=
  arr[percentileIndex arr.length p]?.map fun v => binary64 v.toNat

/-- `bt_latency_percentiles`. -/
def btLatencyPercentiles (sorted : List UInt64) : Option Percentiles :=
  if sorted.length = 0 then
    some ⟨0, 0, 0, 0⟩
  else do
    let p50 ← percentile sorted (50 / 100)
    let p95 ← percentile sorted (95 / 100)
    let p99 ← percentile sorted (99 / 100)
    let p999 ← percentile sorted (999 / 1000)
    return ⟨p50, p95, p99, p999⟩

/-! ### The position -/

/-- A factor in thousandths whose double is below it, by at most a quarter of a last digit. -/
structure Factor (a : ℕ) : Prop where
  lt : a < 1000
  pos : 0 < binary64 (a / 1000)
  le : binary64 (a / 1000) ≤ a / 1000
  near : (a / 1000 : ℚ) - binary64 (a / 1000) ≤ binary64 (a / 1000) / 2 ^ 54

/-- The factors of the function. -/
theorem factor_of_mem {a : ℕ} (ha : a ∈ [500, 950, 990, 999]) : Factor a := by
  have hlt : ∀ a ∈ [500, 950, 990, 999], a < 1000 := by decide
  have hpos : ∀ a ∈ [500, 950, 990, 999], 0 < binary64 ((a : ℕ) / 1000) := by decide +kernel
  have hle : ∀ a ∈ [500, 950, 990, 999], binary64 ((a : ℕ) / 1000) ≤ (a : ℕ) / 1000 := by
    decide +kernel
  have hnear : ∀ a ∈ [500, 950, 990, 999], ((a : ℕ) / 1000 : ℚ) - binary64 ((a : ℕ) / 1000) ≤
      binary64 ((a : ℕ) / 1000) / 2 ^ 54 := by decide +kernel
  exact ⟨hlt a ha, hpos a ha, hle a ha, hnear a ha⟩

section Position

variable {a n : ℕ}

theorem binary64_natCast (hn : n ≤ 2 ^ 53) : binary64 n = n := by
  have h := isRounding_binary64.exact n (by rw [Nat.abs_cast]; exact_mod_cast hn)
  exact_mod_cast h

/-- The exact product, taken apart. -/
theorem mul_thousandths (n a : ℕ) :
    (n : ℚ) * (a / 1000) = (n * a / 1000 : ℕ) + (n * a % 1000 : ℕ) / 1000 := by
  have hdiv : (n : ℚ) * a = 1000 * (n * a / 1000 : ℕ) + (n * a % 1000 : ℕ) := by
    exact_mod_cast (Nat.div_add_mod (n * a) 1000).symm
  rw [← mul_div_assoc, hdiv, add_div, mul_div_cancel_left₀ _ (by norm_num)]

theorem mul_binary64_le (ha : Factor a) (hn : n ≤ 2 ^ 43) :
    (n : ℚ) * binary64 (a / 1000) ≤ 2 ^ 43 := by
  have hone : binary64 (a / 1000) ≤ 1 := by
    have : (a : ℚ) < 1000 := by exact_mod_cast ha.lt
    linarith [ha.le]
  exact (mul_le_of_le_one_right n.cast_nonneg hone).trans (by exact_mod_cast hn)

/-- The double stays below the next integer. -/
theorem binary64_mul_lt (ha : Factor a) (hn : n ≤ 2 ^ 43) :
    binary64 (n * binary64 (a / 1000)) < (n * a / 1000 : ℕ) + 1 := by
  have hmod : ((n * a % 1000 : ℕ) : ℚ) ≤ 999 := by
    exact_mod_cast Nat.le_of_lt_succ (Nat.mod_lt _ (by decide))
  have hle : (n : ℚ) * binary64 (a / 1000) ≤ n * (a / 1000) := by
    gcongr
    exact ha.le
  have hprod := mul_binary64_le ha hn
  have herr := (abs_le.1 (isRounding_binary64.error (n * binary64 (a / 1000)))).2
  rw [abs_of_nonneg (mul_nonneg n.cast_nonneg ha.pos.le)] at herr
  have hexact := mul_thousandths n a
  linarith

/-- It is not below the integer it should be at. -/
theorem le_binary64_mul (ha : Factor a) (hn : n ≤ 2 ^ 43) :
    ((n * a / 1000 : ℕ) : ℚ) ≤ binary64 (n * binary64 (a / 1000)) := by
  have hexact := mul_thousandths n a
  have hpos := ha.pos
  have hsmall : n * a / 1000 ≤ 2 ^ 53 := by
    have : n * a / 1000 ≤ n := Nat.div_le_of_le_mul (by nlinarith [ha.lt])
    omega
  have hnear : (n : ℚ) * (a / 1000) - n * binary64 (a / 1000) ≤
      n * binary64 (a / 1000) / 2 ^ 54 := by
    rw [← mul_sub, mul_div_assoc]
    gcongr
    exact ha.near
  rcases (n * a % 1000).eq_zero_or_pos with hmod | hmod
  · -- the exact product is an integer, and the double is rounded up to it
    rw [hmod, Nat.cast_zero, zero_div, add_zero] at hexact
    rcases n.eq_zero_or_pos with rfl | hn0
    · have hzero := binary64_natCast (n := 0) (by decide)
      rw [Nat.cast_zero] at hzero
      rw [Nat.zero_mul, Nat.zero_div, Nat.cast_zero, zero_mul, hzero]
    · have hn0' : (0 : ℚ) < n := by exact_mod_cast hn0
      have hround : binary64 (n * binary64 (a / 1000)) = ((n * a / 1000 : ℕ) : ℤ) := by
        refine toPrecision_eq_of_near (by decide) (mul_pos hn0' hpos) ?_ ?_ ?_
        · rw [Int.cast_natCast, ← hexact]
          gcongr
          exact ha.le
        · exact_mod_cast hsmall
        · rw [Int.cast_natCast, ← hexact]
          exact hnear
      rw [hround, Int.cast_natCast]
  · -- the exact product is a thousandth above the integer, and so is the double, nearly
    have hmod' : (1 : ℚ) ≤ (n * a % 1000 : ℕ) := by exact_mod_cast hmod
    have hle : ((n * a / 1000 : ℕ) : ℚ) ≤ n * binary64 (a / 1000) := by
      have hprod := mul_binary64_le ha hn
      linarith
    have := isRounding_binary64.mono hle
    rwa [binary64_natCast hsmall] at this

/-- **The computed position is the exact one.** -/
theorem percentileIndex_eq (ha : Factor a) (hn : n ≤ 2 ^ 43) :
    percentileIndex n (a / 1000) = n * a / 1000 := by
  have hfloor : ⌊binary64 (n * binary64 (a / 1000))⌋ = (n * a / 1000 : ℕ) :=
    Int.floor_eq_iff.2 ⟨le_binary64_mul ha hn, binary64_mul_lt ha hn⟩
  rw [percentileIndex, binary64_natCast (hn.trans (by decide)), hfloor, Int.toNat_natCast]

end Position

/-! ### Quantiles -/

section Quantiles

variable {α : Type*} [LinearOrder α]

/-- More than the fraction `p` of the samples are at most `v`, and at most that fraction is
below it. -/
structure IsQuantile (p : ℚ) (samples : List α) (v : α) : Prop where
  mem : v ∈ samples
  lt_count : p * samples.length < samples.countP (· ≤ v)
  count_le : (samples.countP (· < v) : ℚ) ≤ p * samples.length

/-- The order of the samples does not matter. -/
theorem IsQuantile.of_perm {p : ℚ} {l samples : List α} {v : α} (h : IsQuantile p l v)
    (hperm : l.Perm samples) : IsQuantile p samples v where
  mem := hperm.mem_iff.1 h.mem
  lt_count := by
    rw [← hperm.length_eq, ← hperm.countP_eq]
    exact h.lt_count
  count_le := by
    rw [← hperm.length_eq, ← hperm.countP_eq]
    exact h.count_le

/-- How many samples of a sorted array are at most, and how many are below, its element `i`. -/
theorem countP_of_sorted {l : List α} (hsorted : l.Pairwise (· ≤ ·)) {i : ℕ} (hi : i < l.length) :
    i + 1 ≤ l.countP (· ≤ l[i]) ∧ l.countP (· < l[i]) ≤ i := by
  have hsplit : l = l.take i ++ l[i] :: l.drop (i + 1) := by
    rw [List.getElem_cons_drop, List.take_append_drop]
  obtain ⟨-, hdrop, hcross⟩ := List.pairwise_append.1 (hsplit ▸ hsorted)
  have hlen : (l.take i).length = i := List.length_take_of_le hi.le
  have hbefore : (l.take i).countP (· ≤ l[i]) = i := by
    rw [List.countP_eq_length.2, hlen]
    intro x hx
    exact decide_eq_true (hcross x hx _ List.mem_cons_self)
  have hbehind : (l[i] :: l.drop (i + 1)).countP (· < l[i]) = 0 := by
    rw [List.countP_eq_zero]
    intro x hx
    rw [decide_eq_true_eq, not_lt]
    rcases List.mem_cons.1 hx with rfl | hx
    · exact le_rfl
    · exact (List.pairwise_cons.1 hdrop).1 x hx
  have hshort : (l.take i).countP (· < l[i]) ≤ i := by
    have := List.countP_le_length (l := l.take i) (p := (· < l[i]))
    omega
  generalize l[i] = v at *
  rw [hsplit, List.countP_append, List.countP_append, hbefore, hbehind, List.countP_cons,
    if_pos (decide_eq_true le_rfl)]
  omega

/-- **The element at the exact position of a sorted array is a quantile.** -/
theorem IsQuantile.of_sorted {l : List α} (hsorted : l.Pairwise (· ≤ ·)) {a : ℕ}
    (hi : l.length * a / 1000 < l.length) : IsQuantile (a / 1000) l l[l.length * a / 1000] := by
  obtain ⟨hle, hlt⟩ := countP_of_sorted hsorted hi
  have hexact := mul_thousandths l.length a
  refine ⟨List.getElem_mem hi, ?_, ?_⟩
  · have hmod : ((l.length * a % 1000 : ℕ) : ℚ) < 1000 := by
      exact_mod_cast Nat.mod_lt _ (by decide)
    have hle' : ((l.length * a / 1000 : ℕ) : ℚ) + 1 ≤
        (l.countP (· ≤ l[l.length * a / 1000]) : ℕ) := by exact_mod_cast hle
    linarith
  · have hmod : (0 : ℚ) ≤ (l.length * a % 1000 : ℕ) := Nat.cast_nonneg _
    have hlt' : ((l.countP (· < l[l.length * a / 1000]) : ℕ) : ℚ) ≤
        (l.length * a / 1000 : ℕ) := by exact_mod_cast hlt
    linarith

end Quantiles

/-! ### The results -/

section Results

variable {sorted samples : List UInt64}

/-- The sample that stands at `a` thousandths of a sorted array. -/
structure Ranked (sorted : List UInt64) (a v : ℕ) : Prop where
  position : (sorted.map UInt64.toNat)[sorted.length * a / 1000]? = some v
  quantile : IsQuantile (a / 1000) (sorted.map UInt64.toNat) v

theorem pairwise_toNat (hsorted : sorted.Pairwise (· ≤ ·)) :
    (sorted.map UInt64.toNat).Pairwise (· ≤ ·) :=
  List.pairwise_map.2 (hsorted.imp UInt64.le_iff_toNat_le.1)

/-- What one read gives. -/
theorem exists_ranked (hsorted : sorted.Pairwise (· ≤ ·)) (hne : sorted.length ≠ 0)
    (hlen : sorted.length ≤ 2 ^ 43) {a : ℕ} (ha : a ∈ [500, 950, 990, 999]) :
    ∃ v : ℕ, percentile sorted (a / 1000) = some (binary64 v) ∧ Ranked sorted a v := by
  have hfactor := factor_of_mem ha
  have hi : sorted.length * a / 1000 < sorted.length := by
    rw [Nat.div_lt_iff_lt_mul (by decide)]
    exact Nat.mul_lt_mul_of_pos_left hfactor.lt (Nat.pos_of_ne_zero hne)
  have hquantile := IsQuantile.of_sorted (pairwise_toNat hsorted) (a := a)
    (by rwa [List.length_map])
  simp only [List.length_map] at hquantile
  refine ⟨_, ?_, List.getElem?_eq_getElem (by rwa [List.length_map]), hquantile⟩
  rw [percentile, percentileIndex_eq hfactor hlen, List.getElem?_eq_getElem hi, Option.map_some,
    List.getElem_map]

/-- Samples in order. -/
theorem Ranked.le {a b v w : ℕ} (hv : Ranked sorted a v) (hw : Ranked sorted b w)
    (hsorted : sorted.Pairwise (· ≤ ·)) (hab : a ≤ b) : v ≤ w := by
  obtain ⟨hi, rfl⟩ := List.getElem?_eq_some_iff.1 hv.position
  obtain ⟨hj, rfl⟩ := List.getElem?_eq_some_iff.1 hw.position
  have hij : sorted.length * a / 1000 ≤ sorted.length * b / 1000 :=
    Nat.div_le_div_right (Nat.mul_le_mul_left _ hab)
  rcases hij.eq_or_lt with heq | hlt
  · simp only [heq, le_refl]
  · exact List.pairwise_iff_getElem.1 (pairwise_toNat hsorted) _ _ hi hj hlt

/-- The function has a result, and each part of it stands at its exact position. -/
theorem exists_percentiles (hsorted : sorted.Pairwise (· ≤ ·)) (hne : sorted.length ≠ 0)
    (hlen : sorted.length ≤ 2 ^ 43) :
    ∃ v50 v95 v99 v999 : ℕ, btLatencyPercentiles sorted =
        some ⟨binary64 v50, binary64 v95, binary64 v99, binary64 v999⟩ ∧
      Ranked sorted 500 v50 ∧ Ranked sorted 950 v95 ∧ Ranked sorted 990 v99 ∧
      Ranked sorted 999 v999 := by
  have h50 : ((500 : ℕ) / 1000 : ℚ) = 50 / 100 := by norm_num
  have h95 : ((950 : ℕ) / 1000 : ℚ) = 95 / 100 := by norm_num
  have h99 : ((990 : ℕ) / 1000 : ℚ) = 99 / 100 := by norm_num
  have h999 : ((999 : ℕ) / 1000 : ℚ) = 999 / 1000 := by norm_num
  obtain ⟨v50, hread50, hv50⟩ := exists_ranked hsorted hne hlen (a := 500) (by decide)
  obtain ⟨v95, hread95, hv95⟩ := exists_ranked hsorted hne hlen (a := 950) (by decide)
  obtain ⟨v99, hread99, hv99⟩ := exists_ranked hsorted hne hlen (a := 990) (by decide)
  obtain ⟨v999, hread999, hv999⟩ := exists_ranked hsorted hne hlen (a := 999) (by decide)
  rw [h50] at hread50
  rw [h95] at hread95
  rw [h99] at hread99
  rw [h999] at hread999
  refine ⟨v50, v95, v99, v999, ?_, hv50, hv95, hv99, hv999⟩
  rw [btLatencyPercentiles, if_neg hne, hread50, hread95, hread99, hread999]
  rfl

/-- **The four results are quantiles of the samples, and in order.** -/
theorem percentiles_are_quantiles (hperm : sorted.Perm samples)
    (hsorted : sorted.Pairwise (· ≤ ·)) (hne : samples ≠ []) (hlen : samples.length ≤ 2 ^ 43) :
    ∃ v50 v95 v99 v999 : ℕ, btLatencyPercentiles sorted =
        some ⟨binary64 v50, binary64 v95, binary64 v99, binary64 v999⟩ ∧
      IsQuantile (500 / 1000) (samples.map UInt64.toNat) v50 ∧
      IsQuantile (950 / 1000) (samples.map UInt64.toNat) v95 ∧
      IsQuantile (990 / 1000) (samples.map UInt64.toNat) v99 ∧
      IsQuantile (999 / 1000) (samples.map UInt64.toNat) v999 ∧
      v50 ≤ v95 ∧ v95 ≤ v99 ∧ v99 ≤ v999 := by
  have hne' : sorted.length ≠ 0 := by
    rw [hperm.length_eq]
    exact fun h => hne (List.eq_nil_of_length_eq_zero h)
  obtain ⟨v50, v95, v99, v999, hresult, h50, h95, h99, h999⟩ :=
    exists_percentiles hsorted hne' (hperm.length_eq ▸ hlen)
  have hperm' := hperm.map UInt64.toNat
  exact ⟨v50, v95, v99, v999, hresult, h50.quantile.of_perm hperm', h95.quantile.of_perm hperm',
    h99.quantile.of_perm hperm', h999.quantile.of_perm hperm', h50.le h95 hsorted (by decide),
    h95.le h99 hsorted (by decide), h99.le h999 hsorted (by decide)⟩

end Results

/-- Three samples. -/
theorem percentiles_are_quantiles_three :
    ∃ v50 v95 v99 v999 : ℕ, btLatencyPercentiles [10, 20, 30] =
        some ⟨binary64 v50, binary64 v95, binary64 v99, binary64 v999⟩ ∧
      IsQuantile (500 / 1000) ([30, 10, 20].map UInt64.toNat) v50 ∧
      IsQuantile (950 / 1000) ([30, 10, 20].map UInt64.toNat) v95 ∧
      IsQuantile (990 / 1000) ([30, 10, 20].map UInt64.toNat) v99 ∧
      IsQuantile (999 / 1000) ([30, 10, 20].map UInt64.toNat) v999 ∧
      v50 ≤ v95 ∧ v95 ≤ v99 ∧ v99 ≤ v999 :=
  percentiles_are_quantiles (by decide) (by decide) (by decide) (by decide)

end LatencyStats
