/-
**The latency histogram.**

`bt_latency_stats_record` counts a latency in one of 16 bins by the highest set bit of its whole
microseconds.  The bins are labelled `0-1`, `1-2`, `2-4` and so on up to `8k-16k` and `16k+`, so
that bin 1 is to hold the latencies of at least one microsecond and less than two.  But the highest
set bit of 1 has the number 0, so they are counted in bin 0 together with those below one
microsecond, and every longer latency is counted one bin lower than its label says.  What has a
highest bit of 16 or more, 65.536 milliseconds and longer, is not counted in any bin.

Only two kinds of latencies are counted where they belong: those below one microsecond, and those
that fall into bin 15 by their highest bit.

Main definitions:

* `LatencyStats.Stats`, `LatencyStats.btLatencyStatsInit`, `LatencyStats.btLatencyStatsRecord` — the
  statistics;
* `LatencyStats.Labelled` — the latencies that the label of a bin names;
* `LatencyStats.Accounted` — every sample is counted in the bin that is labelled with it.

Main results:

* `LatencyStats.histogramBin_eq` — the shift loop computes the binary logarithm;
* `LatencyStats.histogram_eq` — what the counters count;
* `LatencyStats.accounted_iff` — **the histogram is right exactly for the sequences of samples of
  these two kinds**;
* `LatencyStats.one_microsecond_in_bin_zero` — the two ways to miss a bin.
-/

import Mathlib.Algebra.BigOperators.Fin
import Mathlib.Algebra.Order.BigOperators.Group.Finset

set_option relaxedAutoImplicit false
set_option autoImplicit false

namespace LatencyStats

/-! ### The statistics -/

/-- `bt_latency_stats_t`. -/
structure Stats where
  minNs : UInt64
  maxNs : UInt64
  sumNs : UInt64
  count : UInt64
  histogram : Fin 16 → UInt64

/-- `bt_latency_stats_init`. -/
def btLatencyStatsInit : Stats := ⟨~~~0, 0, 0, 0, fun _ => 0⟩

theorem toNat_shiftRight_one (us : UInt64) : (us >>> 1).toNat = us.toNat / 2 := by
  rw [UInt64.toNat_shiftRight]
  exact Nat.shiftRight_eq_div_pow _ 1

/-- `while (us >>= 1) bin++`. -/
def highestBit (us : UInt64) (bin : ℕ) : ℕ :=
  if us >>> 1 = 0 then bin else highestBit (us >>> 1) (bin + 1)
termination_by us.toNat
decreasing_by
  rename_i hne
  have hpos : (us >>> 1).toNat ≠ 0 := fun h => hne (UInt64.toNat_inj.1 h)
  rw [toNat_shiftRight_one] at hpos ⊢
  omega

/-- The number of the bin for a latency; the array has bins up to 15. -/
def histogramBin (latencyNs : UInt64) : ℕ :=
  let us := latencyNs / 1000
  if us > 0 then highestBit us 0 else 0

/-- `bt_latency_stats_record`. -/
def btLatencyStatsRecord (s : Stats) (latencyNs : UInt64) : Stats where
  minNs := if latencyNs < s.minNs then latencyNs else s.minNs
  maxNs := if latencyNs > s.maxNs then latencyNs else s.maxNs
  sumNs := s.sumNs + latencyNs
  count := s.count + 1
  histogram :=
    let bin := histogramBin latencyNs
    if h : bin < 16 then Function.update s.histogram ⟨bin, h⟩ (s.histogram ⟨bin, h⟩ + 1)
    else s.histogram

/-- The statistics of a sequence of samples. -/
def recordAll (samples : List UInt64) : Stats :=
  samples.foldl btLatencyStatsRecord btLatencyStatsInit

/-! ### The bin of a sample -/

/-- The loop adds the binary logarithm. -/
theorem highestBit_eq (us : UInt64) (bin : ℕ) : highestBit us bin = bin + us.toNat.log2 := by
  fun_induction highestBit us bin with
  | case1 us bin hzero =>
      have hhalf : us.toNat / 2 = 0 := by rw [← toNat_shiftRight_one, hzero, UInt64.toNat_zero]
      rw [Nat.log2_def, if_neg (by omega), Nat.add_zero]
  | case2 us bin hne ih =>
      have hhalf : us.toNat / 2 ≠ 0 := by
        rw [← toNat_shiftRight_one]
        exact fun h => hne (UInt64.toNat_inj.1 h)
      rw [ih, toNat_shiftRight_one, Nat.log2_def us.toNat, if_pos (by omega)]
      omega

/-- **The bin is the binary logarithm of the whole microseconds.** -/
theorem histogramBin_eq (latencyNs : UInt64) :
    histogramBin latencyNs = (latencyNs.toNat / 1000).log2 := by
  have hus : (latencyNs / 1000).toNat = latencyNs.toNat / 1000 := UInt64.toNat_div ..
  simp only [histogramBin]
  split
  · rw [highestBit_eq, hus, Nat.zero_add]
  · next hzero =>
      have : latencyNs.toNat / 1000 = 0 := by
        rw [← hus]
        exact Nat.eq_zero_of_not_pos fun h => hzero (UInt64.lt_iff_toNat_lt.2 h)
      rw [this, Nat.log2_zero]

/-- The latency belongs into the bin by the label of the bin: `0-1`, `1-2`, `2-4`, … , `16k+`, in
microseconds. -/
def Labelled (k : Fin 16) (latencyNs : UInt64) : Prop :=
  (k = 0 ∨ 2 ^ (k.val - 1) * 1000 ≤ latencyNs.toNat) ∧
    (k = 15 ∨ latencyNs.toNat < 2 ^ k.val * 1000)

instance (k : Fin 16) (latencyNs : UInt64) : Decidable (Labelled k latencyNs) :=
  inferInstanceAs (Decidable ((k = 0 ∨ 2 ^ (k.val - 1) * 1000 ≤ latencyNs.toNat) ∧
    (k = 15 ∨ latencyNs.toNat < 2 ^ k.val * 1000)))

/-- The latencies that are counted where they belong: less than one microsecond, or at least
`2 ^ 15` and less than `2 ^ 16`. -/
def WellBinned (latencyNs : UInt64) : Prop :=
  latencyNs.toNat < 1000 ∨ (2 ^ 15 * 1000 ≤ latencyNs.toNat ∧ latencyNs.toNat < 2 ^ 16 * 1000)

section Bins

variable {x : UInt64}

theorem labelled_iff {k : Fin 16} : Labelled k x ↔
    (k = 0 ∨ 2 ^ (k.val - 1) ≤ x.toNat / 1000) ∧ (k = 15 ∨ x.toNat / 1000 < 2 ^ k.val) := by
  rw [Labelled, Nat.le_div_iff_mul_le (by decide), Nat.div_lt_iff_lt_mul (by decide)]

theorem wellBinned_iff :
    WellBinned x ↔ x.toNat / 1000 = 0 ∨ (2 ^ 15 ≤ x.toNat / 1000 ∧ x.toNat / 1000 < 2 ^ 16) := by
  rw [WellBinned]
  omega

/-- From one microsecond on the bin is one lower than the label. -/
theorem histogramBin_eq_iff {k : ℕ} (hx : x.toNat / 1000 ≠ 0) :
    histogramBin x = k ↔ 2 ^ k ≤ x.toNat / 1000 ∧ x.toNat / 1000 < 2 ^ (k + 1) := by
  rw [histogramBin_eq, Nat.log2_eq_iff hx]

theorem histogramBin_of_zero (hx : x.toNat / 1000 = 0) : histogramBin x = 0 := by
  rw [histogramBin_eq, hx, Nat.log2_zero]

/-- A latency with the label of bin `k + 1` is counted in bin `k`. -/
theorem histogramBin_of_labelled {k : ℕ} (hk : k + 1 < 15) (h : Labelled ⟨k + 1, by omega⟩ x) :
    histogramBin x = k := by
  obtain ⟨hlo, hhi⟩ := labelled_iff.1 h
  have hlo' : 2 ^ k ≤ x.toNat / 1000 := hlo.resolve_left (by simp [Fin.ext_iff])
  have hhi' : x.toNat / 1000 < 2 ^ (k + 1) := by
    refine hhi.resolve_left ?_
    simp only [Fin.ext_iff]
    change ¬ k + 1 = 15
    omega
  have hpos : 0 < 2 ^ k := Nat.two_pow_pos k
  exact (histogramBin_eq_iff (by omega)).2 ⟨hlo', hhi'⟩

/-- A latency of a good kind is counted in the bin of its label. -/
theorem WellBinned.histogramBin_iff (h : WellBinned x) (k : Fin 16) :
    histogramBin x = k ↔ Labelled k x := by
  rw [labelled_iff]
  rcases wellBinned_iff.1 h with hzero | ⟨hlo, hhi⟩
  · rw [histogramBin_of_zero hzero, hzero]
    have hpos : 0 < 2 ^ (k.val - 1) := Nat.two_pow_pos _
    have hpos' : 0 < 2 ^ k.val := Nat.two_pow_pos _
    simp only [Fin.ext_iff]
    change 0 = k.val ↔ (k.val = 0 ∨ _) ∧ (_ ∨ _)
    omega
  · have hbin : histogramBin x = 15 := (histogramBin_eq_iff (by omega)).2 ⟨hlo, hhi⟩
    rw [hbin]
    by_cases hk : k = 15
    · subst hk
      exact iff_of_true rfl ⟨.inr (by change 2 ^ 14 ≤ _; omega), .inl rfl⟩
    · have hle : k.val ≤ 14 := by
        have := Fin.val_ne_of_ne hk
        omega
      have hpow : 2 ^ k.val ≤ 2 ^ 14 := Nat.pow_le_pow_right (by decide) hle
      refine iff_of_false (fun h => hk (Fin.ext h.symm)) ?_
      rintro ⟨-, hlabel⟩
      have := hlabel.resolve_left hk
      omega

end Bins

/-! ### The counters -/

section Counters

/-- Of two conditions of which one implies the other, equally many samples meet both only if the
same samples do. -/
theorem imp_of_countP_eq {α : Type*} {p q : α → Bool} {l : List α}
    (himp : ∀ x, p x = true → q x = true) (h : l.countP p = l.countP q) {x : α} (hx : x ∈ l)
    (hq : q x = true) : p x = true := by
  induction l with
  | nil => cases hx
  | cons y l ih =>
      have hle : l.countP p ≤ l.countP q := List.countP_mono_left fun z _ => himp z
      rw [List.countP_cons, List.countP_cons] at h
      rcases List.mem_cons.1 hx with rfl | hx
      · by_contra hp
        rw [if_pos hq, if_neg hp] at h
        omega
      · refine ih ?_ hx
        have := himp y
        split_ifs at h <;> simp_all

variable (samples : List UInt64)

/-- Every sample that has a bin is counted in one. -/
theorem sum_countP_bins :
    ∑ i : Fin 16, samples.countP (fun x => histogramBin x = i) =
      samples.countP fun x => histogramBin x < 16 := by
  induction samples with
  | nil => simp
  | cons x l ih =>
      simp only [List.countP_cons, Finset.sum_add_distrib, ih, decide_eq_true_eq,
        Nat.add_left_cancel_iff]
      by_cases hx : histogramBin x < 16
      · have hone : ∀ i : Fin 16, histogramBin x = i ↔ (⟨histogramBin x, hx⟩ : Fin 16) = i :=
          fun i => ⟨fun h => Fin.ext h, fun h => congrArg Fin.val h⟩
        simp only [hone, Finset.sum_ite_eq, Finset.mem_univ, if_pos hx, if_true]
      · have hnone : ∀ i : Fin 16, ¬ histogramBin x = i := fun i h => hx (h ▸ i.isLt)
        simp only [if_neg (hnone _), if_neg hx, Finset.sum_const_zero]

/-- What one call adds to a counter. -/
theorem histogram_record (s : Stats) (x : UInt64) (i : Fin 16) :
    (btLatencyStatsRecord s x).histogram i =
      s.histogram i + if histogramBin x = i then 1 else 0 := by
  simp only [btLatencyStatsRecord]
  split
  · next hlt =>
      by_cases hi : histogramBin x = i
      · obtain rfl : i = ⟨histogramBin x, hlt⟩ := Fin.ext hi.symm
        rw [Function.update_self, if_pos rfl]
      · rw [Function.update_of_ne fun h => hi (congrArg Fin.val h).symm, if_neg hi, UInt64.add_zero]
  · next hlt =>
      have hi : ¬ histogramBin x = i := fun h => hlt (h ▸ i.isLt)
      rw [if_neg hi, UInt64.add_zero]

/-- A counter that a call increments for the samples that meet a condition. -/
theorem counter_eq {g : Stats → UInt64} {p : UInt64 → Bool} (hinit : g btLatencyStatsInit = 0)
    (hrecord : ∀ s x, g (btLatencyStatsRecord s x) = g s + if p x = true then 1 else 0) :
    g (recordAll samples) = UInt64.ofNat (samples.countP p) := by
  induction samples using List.reverseRecOn with
  | nil => exact hinit
  | append_singleton l x ih =>
      have hlast : recordAll (l ++ [x]) = btLatencyStatsRecord (recordAll l) x :=
        List.foldl_append
      rw [hlast, hrecord, ih, List.countP_append, UInt64.ofNat_add, List.countP_singleton]
      split <;> rfl

/-- **What the counters count.** -/
theorem histogram_eq (i : Fin 16) : (recordAll samples).histogram i =
    UInt64.ofNat (samples.countP fun x => histogramBin x = i) := by
  refine counter_eq samples (g := fun s => s.histogram i) rfl fun s x => ?_
  rw [histogram_record]
  simp only [decide_eq_true_eq]

theorem count_eq : (recordAll samples).count = UInt64.ofNat samples.length := by
  rw [counter_eq samples (g := Stats.count) (p := fun _ => true) rfl fun _ _ => rfl,
    List.countP_true]

end Counters

/-! ### The histogram -/

/-- The counters sum up to the number of samples, and each counts the samples with its label. -/
structure Accounted (s : Stats) (samples : List UInt64) : Prop where
  total : ∑ i, (s.histogram i).toNat = s.count.toNat
  bins : ∀ i, (s.histogram i).toNat = samples.countP fun x => Labelled i x

section Accounted

variable {samples : List UInt64}

theorem toNat_histogram (hlen : samples.length < 2 ^ 64) (i : Fin 16) :
    ((recordAll samples).histogram i).toNat = samples.countP fun x => histogramBin x = i := by
  rw [histogram_eq, UInt64.toNat_ofNat']
  exact Nat.mod_eq_of_lt (List.countP_le_length.trans_lt hlen)

/-- Samples of the two good kinds are all accounted for. -/
theorem accounted_of_wellBinned (hlen : samples.length < 2 ^ 64)
    (h : ∀ x ∈ samples, WellBinned x) : Accounted (recordAll samples) samples := by
  constructor
  · simp only [toNat_histogram hlen]
    rw [sum_countP_bins, count_eq, UInt64.toNat_ofNat', Nat.mod_eq_of_lt hlen]
    refine List.countP_eq_length.2 fun x hx => decide_eq_true ?_
    rcases wellBinned_iff.1 (h x hx) with hzero | ⟨hlo, hhi⟩
    · rw [histogramBin_of_zero hzero]
      decide
    · rw [(histogramBin_eq_iff (by omega)).2 ⟨hlo, hhi⟩]
      decide
  · intro i
    rw [toNat_histogram hlen]
    refine List.countP_congr fun x hx => ?_
    simp only [decide_eq_true_eq]
    exact (h x hx).histogramBin_iff i

/-- If the counters agree with the labels, no sample has one of the labels from `1-2` up to
`8k-16k`: bin by bin, since the samples with one label are those counted in the bin below. -/
theorem not_labelled_of_bins
    (h : ∀ i : Fin 16, samples.countP (fun x => histogramBin x = i) =
      samples.countP fun x => Labelled i x) (k : ℕ) (hk : k + 1 < 15) :
    ∀ x ∈ samples, ¬ Labelled ⟨k + 1, by omega⟩ x := by
  induction k with
  | zero =>
      intro x hx hlabel
      have hbin := histogramBin_of_labelled hk hlabel
      -- bin 0 counts all samples with its label, so it counts no others
      have himp : ∀ y, decide (Labelled 0 y) = true →
          decide (histogramBin y = ((0 : Fin 16) : ℕ)) = true := by
        intro y hy
        obtain ⟨-, hhi⟩ := labelled_iff.1 (of_decide_eq_true hy)
        have hzero : y.toNat / 1000 < 2 ^ 0 := hhi.resolve_left (by decide)
        exact decide_eq_true (histogramBin_of_zero (by omega))
      have hzero := imp_of_countP_eq himp (h 0).symm hx (decide_eq_true hbin)
      obtain ⟨-, hhi⟩ := labelled_iff.1 (of_decide_eq_true hzero)
      obtain ⟨hlo, -⟩ := labelled_iff.1 hlabel
      have hlo' : 2 ^ 0 ≤ x.toNat / 1000 := hlo.resolve_left (Fin.ne_of_val_ne Nat.one_ne_zero)
      have hhi' : x.toNat / 1000 < 2 ^ 0 := hhi.resolve_left (by decide)
      omega
  | succ k ih =>
      intro x hx hlabel
      have hnone : samples.countP (fun x => Labelled ⟨k + 1, by omega⟩ x) = 0 :=
        List.countP_eq_zero.2 fun y hy hy' => ih (by omega) y hy (of_decide_eq_true hy')
      rw [← h] at hnone
      exact List.countP_eq_zero.1 hnone x hx (decide_eq_true (histogramBin_of_labelled hk hlabel))

/-- Samples that are all accounted for are of the two good kinds. -/
theorem wellBinned_of_accounted (hlen : samples.length < 2 ^ 64)
    (h : Accounted (recordAll samples) samples) : ∀ x ∈ samples, WellBinned x := by
  have hbins : ∀ i : Fin 16, samples.countP (fun x => histogramBin x = i) =
      samples.countP fun x => Labelled i x := fun i => by
    rw [← toNat_histogram hlen, h.bins]
  have hlabels := not_labelled_of_bins hbins
  intro x hx
  rw [wellBinned_iff]
  by_contra hcon
  rw [not_or] at hcon
  obtain ⟨hpos, hlast⟩ := hcon
  obtain ⟨hlo, hhi⟩ := (histogramBin_eq_iff hpos).1 rfl
  rcases Nat.lt_trichotomy (histogramBin x) 14 with hlt | heq | hgt
  · -- it has one of the labels in between
    refine hlabels (histogramBin x) (by omega) x hx (labelled_iff.2 ⟨.inr hlo, .inr hhi⟩)
  · -- it is counted in bin 14, which counts nothing
    have hnone : samples.countP (fun x => Labelled 14 x) = 0 :=
      List.countP_eq_zero.2 fun y hy hy' => hlabels 13 (by decide) y hy (of_decide_eq_true hy')
    rw [← hbins] at hnone
    exact List.countP_eq_zero.1 hnone x hx (decide_eq_true heq)
  · -- it has the last label, and all of these are counted in bin 15
    have hbig : 2 ^ 15 ≤ x.toNat / 1000 :=
      (Nat.pow_le_pow_right (by decide) hgt).trans hlo
    have himp : ∀ y, decide (histogramBin y = ((15 : Fin 16) : ℕ)) = true →
        decide (Labelled 15 y) = true := by
      intro y hy
      have hbin : histogramBin y = 15 := of_decide_eq_true hy
      have hy0 : y.toNat / 1000 ≠ 0 := fun h => by
        rw [histogramBin_of_zero h] at hbin
        cases hbin
      have hle := ((histogramBin_eq_iff hy0).1 hbin).1
      exact decide_eq_true (labelled_iff.2 ⟨.inr (by change 2 ^ 14 ≤ _; omega), .inl rfl⟩)
    have hlabel : Labelled 15 x :=
      labelled_iff.2 ⟨.inr (by change 2 ^ 14 ≤ _; omega), .inl rfl⟩
    have hbin : histogramBin x = 15 :=
      of_decide_eq_true (imp_of_countP_eq himp (hbins 15) hx (decide_eq_true hlabel))
    rw [hbin] at hhi
    exact hlast ⟨hbig, hhi⟩

end Accounted

/-- **The histogram accounts for every sample exactly if every sample is of one of the two good
kinds**: for every sequence of fewer than `2 ^ 64` samples. -/
theorem accounted_iff (samples : List UInt64) (hlen : samples.length < 2 ^ 64) :
    Accounted (recordAll samples) samples ↔ ∀ x ∈ samples, WellBinned x :=
  ⟨wellBinned_of_accounted hlen, accounted_of_wellBinned hlen⟩

/-- Half a microsecond and forty milliseconds are both counted where they belong. -/
theorem short_and_long_accounted :
    [500, 40000000].length < 2 ^ 64 ∧
      Accounted (recordAll [500, 40000000]) [500, 40000000] := by
  refine ⟨by decide, (accounted_iff [500, 40000000] (by decide)).2 ?_⟩
  simp only [List.forall_mem_cons, List.not_mem_nil, false_implies, implies_true, and_true]
  exact ⟨.inl (by decide), .inr ⟨by decide, by decide⟩⟩

/-- A microsecond is counted in bin 0, and 65.536 milliseconds in no bin. -/
theorem one_microsecond_in_bin_zero :
    (recordAll [1000]).histogram 0 = 1 ∧ ¬ Accounted (recordAll [1000]) [1000] ∧
      (∀ i, (recordAll [65536000]).histogram i = 0) ∧ (recordAll [65536000]).count = 1 ∧
      ¬ Accounted (recordAll [65536000]) [65536000] := by
  have hzero : (recordAll [1000]).histogram 0 = 1 := by
    simp only [histogram_eq, histogramBin_eq]
    decide
  have hnone : ∀ i, (recordAll [65536000]).histogram i = 0 := by
    simp only [histogram_eq, histogramBin_eq]
    decide
  refine ⟨hzero, fun h => ?_, hnone, rfl, fun h => ?_⟩
  · have hbin := h.bins 0
    rw [hzero] at hbin
    exact absurd hbin (by decide)
  · have hbin := h.bins 15
    rw [hnone] at hbin
    exact absurd hbin (by decide)

end LatencyStats
