/-
**What a free of the tiered allocator gives back.**

`bt_tier_free` looks only at the tier that the caller names.  A cold pointer came from the heap and
goes back to it, and a hot pointer that came from a slab goes back to the slab.  But a hot request
that found its slab and the warm pool exhausted was answered from the heap, and its pointer lies in
no slab: the free looks through the slabs and returns, and the block is lost.

A heap block that is lost stays lost, since no later free names its address as cold.  So a run in
which all hot and cold pointers were freed has given everything back exactly if no hot request was
answered from the heap.

Main definitions:

* `MemoryTier.Restored` — the slabs are as at the start, and the heap holds nothing for hot or cold
  requests;
* `MemoryTier.OffHeap` — no hot request is answered from the heap;
* `MemoryTier.Lost` — a block of the heap that answered a hot request.

Main results:

* `MemoryTier.lost_step` — a step loses a block exactly if it answers a hot request from the heap,
  and what is lost stays lost;
* `MemoryTier.restored_iff` — **everything is given back exactly if no hot request was answered from
  the heap**.
-/

import AspiraBroker.MemoryTier
import Mathlib.Algebra.Order.BigOperators.Group.Finset

set_option relaxedAutoImplicit false
set_option autoImplicit false

namespace MemoryTier

open AlignedCells LinkedChain Transition SlabAllocator

variable {hotPoolMb warmPoolMb : ℕ} {mem : Memory hotPoolMb warmPoolMb} {w w' : World}

/-- Every slab has all its blocks free, and no block of the heap that was obtained for a hot or a
cold request has not been passed to `free`. -/
structure Restored (mem : Memory hotPoolMb warmPoolMb) (w : World) : Prop where
  tame : w.wild = false
  slabs : ∀ i, ∃ l, Chain (w.tier.slabs i).words (w.tier.slabs i).freeList l ∧
    l.Perm (hotLayout (mem.hot i)).blocks
  heap : ∀ b ∈ w.heap, b.tier ≠ .hot ∧ b.tier ≠ .cold

/-- The index of the slab is not negative, and the request is not a hot one that goes through to a
`calloc` that succeeds. -/
def OffHeap (w : World) : Act → Prop
  | .alloc .hot size answer => 0 ≤ w.tier.hotIndex ∧
      ((w.tier.slabs w.tier.hotSlab).freeList = none →
        w.tier.warmSize < warmStop w.tier size.toNat → answer = none)
  | _ => True

instance (w : World) : ∀ a, Decidable (OffHeap w a)
  | .alloc .hot size answer => inferInstanceAs (Decidable (0 ≤ w.tier.hotIndex ∧
      ((w.tier.slabs w.tier.hotSlab).freeList = none →
        w.tier.warmSize < warmStop w.tier size.toNat → answer = none)))
  | .alloc .warm _ _ | .alloc .cold _ _ | .alloc .other _ _ | .free _ | .write _ _ => isTrue trivial

/-- The sums of the warm pool do not wrap around, and it serves no request for no bytes at its
end. -/
def Regular (w : World) (a : Act) : Prop := NoWrap w a ∧ NotAtEnd w a

instance (w : World) (a : Act) : Decidable (Regular w a) :=
  inferInstanceAs (Decidable (NoWrap w a ∧ NotAtEnd w a))

/-- A block of the heap answered a hot request, or a slab was taken from outside of the array. -/
def Lost (w : World) : Prop := w.wild = true ∨ ∃ b ∈ w.heap, b.tier = .hot

/-! ### One step -/

/-- What a free does to the heap: nothing, or it takes the block of a cold pointer out. -/
theorem Kept.release_heap (h : Kept mem w) {r : Grant} (hr : r ∈ w.out) :
    (w.release r).heap = w.heap ∨
      r.tier = .cold ∧ w.heap.Perm (r.block :: (w.release r).heap) := by
  cases hsource : r.source with
  | slab i =>
      obtain ⟨htier, hblock⟩ := h.mem_slab hr hsource
      left
      simp [World.release, btTierFree, htier, h.slabOf_eq hblock]
  | warm =>
      left
      rw [h.release_eq hr (by simp [hsource]) (h.mem_warm hr hsource).1]
  | heap =>
      by_cases hcold : r.tier = .cold
      · right
        refine ⟨hcold, ?_⟩
        have hheap : (w.release r).heap = w.heap.eraseP fun b => b.ptr = r.ptr := by
          simp [World.release, btTierFree, hcold]
        rw [hheap]
        exact perm_eraseP h.heap_apart (h.block_mem hr hsource)
      · left
        rw [h.release_eq hr (by simp [hsource]) hcold]

/-- A block that answered a hot request is still there after a free. -/
theorem Kept.mem_release_iff (h : Kept mem w) {r : Grant} (hr : r ∈ w.out) {b : Block}
    (hb : b.tier = .hot) : b ∈ (w.release r).heap ↔ b ∈ w.heap := by
  rcases h.release_heap hr with heq | ⟨hcold, hperm⟩
  · rw [heq]
  · have hne : b ≠ r.block := by
      rintro rfl
      cases hcold.symm.trans hb
    rw [hperm.mem_iff, List.mem_cons]
    exact ⟨.inr, fun hmem => hmem.resolve_left hne⟩

theorem lost_release_iff (h : Kept mem w) {r : Grant} (hr : r ∈ w.out) :
    Lost (w.release r) ↔ Lost w := by
  refine or_congr Iff.rfl (exists_congr fun b => ?_)
  constructor
  · rintro ⟨hmem, hb⟩
    exact ⟨(h.mem_release_iff hr hb).1 hmem, hb⟩
  · rintro ⟨hmem, hb⟩
    exact ⟨(h.mem_release_iff hr hb).2 hmem, hb⟩

/-- **A step loses a block exactly if it answers a hot request from the heap**, and what is lost
stays lost. -/
theorem lost_step (h : Kept mem w) {a : Act} (hstep : step mem w a = some w') :
    Lost w' ↔ Lost w ∨ ¬ OffHeap w a := by
  cases a with
  | alloc tier size answer =>
      cases requests_of_step hstep with
      | wild htier hindex =>
          subst htier
          exact iff_of_true (.inl rfl) (.inr fun hoff => absurd hoff.1 (Int.not_le.2 hindex))
      | @slab htier hindex s p halloc =>
          subst htier
          refine loss_of_iff Iff.rfl ⟨hindex, fun hnone => ?_⟩
          simp [btSlabAlloc, hnone] at halloc
      | warm hrequest hserved hslabs hpool hsize hoffset =>
          refine loss_of_iff Iff.rfl ?_
          cases tier with
          | hot =>
              simp only [warmRequest, Option.ite_none_right_eq_some] at hrequest
              exact ⟨hrequest.1.1, fun _ hfull => absurd hserved (Nat.not_le.2 hfull)⟩
          | warm => trivial
          | cold => cases hrequest
          | other => cases hrequest
      | refused hsteady hfalls hanswer =>
          refine loss_of_iff Iff.rfl ?_
          cases tier with
          | hot => exact ⟨hfalls.1, fun _ _ => hanswer⟩
          | warm => trivial
          | cold => trivial
          | other => trivial
      | @heap p t hsteady hfalls hanswer hvacant =>
          by_cases hhot : tier = .hot
          · subst hhot
            refine iff_of_true (.inr ⟨_, List.mem_cons_self, rfl⟩) (.inr fun hoff => ?_)
            cases hanswer.symm.trans (hoff.2 hfalls.2.1 hfalls.2.2)
          · refine loss_of_iff (or_congr Iff.rfl ?_) ?_
            · simp [hhot]
            · cases tier with
              | hot => exact absurd rfl hhot
              | warm => trivial
              | cold => trivial
              | other => trivial
  | free r =>
      simp only [step, Option.ite_none_right_eq_some, Option.some.injEq] at hstep
      obtain ⟨hr, rfl⟩ := hstep
      exact loss_of_iff (lost_release_iff h hr) trivial
  | write r v =>
      obtain ⟨t, rfl⟩ := write_tier hstep
      exact loss_of_iff Iff.rfl trivial

/-! ### Whole runs -/

/-- When all hot and cold pointers are freed, what is not lost is given back. -/
theorem Kept.restored_iff_not_lost (h : Kept mem w)
    (hfreed : ∀ r ∈ w.out, r.tier ≠ .hot ∧ r.tier ≠ .cold) : Restored mem w ↔ ¬ Lost w := by
  constructor
  · rintro ⟨htame, -, hheap⟩ (hwild | ⟨b, hb, hhot⟩)
    · cases htame.symm.trans hwild
    · exact (hheap b hb).1 hhot
  · intro hnot
    refine ⟨?_, fun i => ?_, fun b hb => ⟨fun hhot => hnot (.inr ⟨b, hb, hhot⟩), fun hcold => ?_⟩⟩
    · exact Bool.eq_false_iff.2 fun hwild => hnot (.inl hwild)
    · obtain ⟨l, hl⟩ := h.slabs i
      have hnone : heldIn w.out i = [] := by
        refine List.eq_nil_iff_forall_not_mem.2 fun p hp => ?_
        obtain ⟨r, hr, -⟩ := List.mem_map.1 hp
        obtain ⟨hr, hsource⟩ := List.mem_filter.1 hr
        exact (hfreed r hr).1 (h.mem_slab hr (by simpa using hsource)).1
      have hparts := hl.parts
      rw [hnone] at hparts
      exact ⟨l, hl.chain, hparts⟩
    · obtain ⟨lost, hperm, hlost⟩ := h.heap
      rcases List.mem_append.1 (hperm.mem_iff.1 hb) with hin | hin
      · obtain ⟨r, hr, rfl⟩ := List.mem_map.1 hin
        exact (hfreed r (List.mem_filter.1 hr).1).2 hcold
      · exact hlost b hin hcold

/-- **Everything is given back exactly if no hot request was answered from the heap**: for every run
of requests of any tier and size and frees with the tier of the request, at whose end all hot and
cold pointers are freed.  Left aside are runs in which a sum of the warm pool wraps around, or in
which it serves a request for no bytes at its very end. -/
theorem restored_iff (mem : Memory hotPoolMb warmPoolMb) (words : ℕ → Option ℕ) {ok : Answers}
    {t : Tier} (hinit : btTierInit mem words ok = some t) {acts : List Act} {w : World}
    (hrun : run (step mem) (start t) acts = some w)
    (hregular : Along (step mem) Regular (start t) acts)
    (hfreed : ∀ r ∈ w.out, r.tier ≠ .hot ∧ r.tier ≠ .cold) :
    Restored mem w ↔ Along (step mem) OffHeap (start t) acts := by
  have hkeep : ∀ w a w', Kept mem w → Regular w a → step mem w a = some w' → Kept mem w' :=
    fun w a w' h hreg hstep => step_kept h hreg.1 hreg.2 hstep
  have hstart := (btTierInit_clean hinit).kept
  have hkept : Kept mem w := run_induction hkeep hstart hregular hrun
  have hnone : ¬ Lost (start t) := by
    rintro (hwild | ⟨b, hb, -⟩)
    · cases hwild
    · cases hb
  rw [hkept.restored_iff_not_lost hfreed]
  exact (along_iff_of_loss hkeep (fun w a w' h _ hstep => lost_step h hstep) hstart hnone hregular
    hrun).symm

/-- A hot request, which slab `i` answers with its last block, a cold one, and their frees. -/
def thereAndBack (i : Fin 8) : List Act :=
  [.alloc .hot 64 none, .alloc .cold 10 (some 1099511627776),
    .free ⟨.hot, 1048576 * (i + 1) + 2047 * 64, 64, .slab i⟩,
    .free ⟨.cold, 1099511627776, 10, .heap⟩]

/-- The hypotheses of `MemoryTier.restored_iff` hold of a hot and a cold request that are freed
again, and so does the condition. -/
theorem restored_there_and_back :
    ∃ t w, btTierInit oneMegabyte (fun _ => none) allThere = some t ∧
      run (step oneMegabyte) (start t) (thereAndBack 0) = some w ∧ Restored oneMegabyte w :=
  ⟨_, (run (step oneMegabyte) _ (thereAndBack 0)).get (by decide +kernel), rfl,
    (Option.some_get _).symm, (restored_iff oneMegabyte (fun _ => none)
      (by rfl : btTierInit oneMegabyte (fun _ => none) allThere = some _) (Option.some_get _).symm
      (by decide +kernel) (by decide +kernel)).2 (by decide +kernel)⟩

/-! ### A block that is lost -/

/-- The blocks of the slabs that are free. -/
def freeBlocks (mem : Memory hotPoolMb warmPoolMb) (out : List Grant) : ℕ :=
  ∑ i, ((hotLayout (mem.hot i)).numBlocks - (heldIn out i).length)

/-- As long as the turn counter does not overflow, it gives an index and moves on by one. -/
theorem turned_of_lt {t : Tier} (hlo : 0 ≤ t.hotNext) (hhi : t.hotNext + 1 < 2 ^ 31) :
    0 ≤ t.hotIndex ∧ t.turned.hotNext = t.hotNext + 1 := by
  refine ⟨Int.tmod_nonneg 8 hlo, ?_⟩
  exact Int.bmod_eq_of_le (by omega) (by omega)

/-- A hot request that the slab whose turn it is answers. -/
def SlabAnswers (w : World) : Act → Prop
  | .alloc .hot _ _ => 0 ≤ w.tier.hotIndex ∧ (w.tier.slabs w.tier.hotSlab).freeList ≠ none
  | _ => False

/-- A slab that hands out a block has one free block less. -/
theorem freeBlocks_lt (h : Kept mem w) {i : Fin 8} {s : Slab} {p n : ℕ}
    (halloc : btSlabAlloc (w.tier.slabs i) = (s, some p)) :
    freeBlocks mem (⟨.hot, p, n, .slab i⟩ :: w.out) < freeBlocks mem w.out := by
  obtain ⟨-, -, hkept⟩ := h.slab (n := n) halloc
  refine Finset.sum_lt_sum (fun j _ => ?_) ⟨i, Finset.mem_univ i, ?_⟩
  · rcases eq_or_ne i j with rfl | hj
    · rw [heldIn_cons rfl, List.length_cons]
      omega
    · rw [heldIn_cons_of_ne (by simpa using hj)]
  · obtain ⟨l, hl⟩ := hkept.slabs i
    have hlen := hl.length
    rw [heldIn_cons rfl, List.length_cons] at hlen ⊢
    omega

/-- Hot requests are answered from the slabs until one of them finds its slab exhausted. -/
theorem exhaust (h : Kept mem w) (hlo : 0 ≤ w.tier.hotNext)
    (hhi : w.tier.hotNext + freeBlocks mem w.out + 1 < 2 ^ 31) :
    ∃ n w', run (step mem) w (List.replicate n (.alloc .hot 1 none)) = some w' ∧
      Along (step mem) SlabAnswers w (List.replicate n (.alloc .hot 1 none)) ∧ Kept mem w' ∧
      0 ≤ w'.tier.hotIndex ∧ (w'.tier.slabs w'.tier.hotSlab).freeList = none ∧
      w'.tier.warmOffset = w.tier.warmOffset ∧ w'.heap = w.heap := by
  -- every request that a slab answers uses up one of its free blocks
  induction hfree : freeBlocks mem w.out using Nat.strong_induction_on generalizing w with
  | _ m ih =>
      obtain ⟨hindex, hnext⟩ := turned_of_lt hlo (by omega)
      cases hlist : (w.tier.slabs w.tier.hotSlab).freeList with
      | none => exact ⟨0, w, rfl, along_nil w, h, hindex, hlist, rfl, rfl⟩
      | some p =>
          obtain ⟨s, halloc⟩ : ∃ s, btSlabAlloc (w.tier.slabs w.tier.hotSlab) = (s, some p) := by
            simp only [btSlabAlloc, hlist]
            exact ⟨_, rfl⟩
          have hless := freeBlocks_lt (n := 1) h halloc
          obtain ⟨-, -, hkept⟩ := h.slab (n := 1) halloc
          have hstep : step mem w (.alloc .hot 1 none) = some { w with
              tier := { w.tier.turned with slabs := Function.update w.tier.slabs w.tier.hotSlab s }
              out := ⟨.hot, p, 1, .slab w.tier.hotSlab⟩ :: w.out } := by
            simp only [step, btTierAlloc, if_neg (Int.not_lt.2 hindex), halloc]
            rfl
          have hlo' : 0 ≤ w.tier.turned.hotNext := by omega
          have hhi' : w.tier.turned.hotNext +
              freeBlocks mem (⟨.hot, p, 1, .slab w.tier.hotSlab⟩ :: w.out) + 1 < 2 ^ 31 := by omega
          obtain ⟨n, w', hrun, halong, hrest⟩ := ih _ (hfree ▸ hless) hkept hlo' hhi' rfl
          refine ⟨n + 1, w', ?_, ⟨⟨hindex, hlist ▸ Option.some_ne_none p⟩, fun v hv => ?_⟩, hrest⟩
          · rw [List.replicate_succ, run_cons_eq hstep]
            exact hrun
          · obtain rfl := Option.some.inj (hstep.symm.trans hv)
            exact halong

/-- All pointers in use can be freed; a block that answered a hot request is still there. -/
theorem free_all (h : Kept mem w) {b : Block} (hb : b ∈ w.heap) (hhot : b.tier = .hot) :
    ∃ acts w', run (step mem) w acts = some w' ∧ w'.out = [] ∧ b ∈ w'.heap := by
  generalize hout : w.out = out
  induction out generalizing w with
  | nil => exact ⟨[], w, rfl, hout, hb⟩
  | cons r out ih =>
      have hr : r ∈ w.out := hout ▸ List.mem_cons_self
      have hstep : step mem w (.free r) = some (w.release r) := if_pos hr
      have hrest : (w.release r).out = out := by
        change w.out.erase r = out
        rw [hout, List.erase_cons_head]
      obtain ⟨acts, w', hrun, hdone⟩ := ih (h.release hr) ((h.mem_release_iff hr hhot).2 hb) hrest
      exact ⟨.free r :: acts, w', (run_cons_eq hstep acts).trans hrun, hdone⟩

/-- A hot request that finds its slab and the pool exhausted is answered from the heap. -/
theorem step_falls {size : UInt64} {p : ℕ} (hindex : 0 ≤ w.tier.hotIndex)
    (hlist : (w.tier.slabs w.tier.hotSlab).freeList = none)
    (hfull : w.tier.warmSize < warmStop w.tier size.toNat)
    (hvacant : Vacant mem w.heap p size.toNat) :
    ∃ t, step mem w (.alloc .hot size (some p)) = some { w with
      tier := t
      heap := ⟨.hot, p, size.toNat⟩ :: w.heap
      out := ⟨.hot, p, size.toNat, .heap⟩ :: w.out } := by
  have hfull' : ¬ warmStop w.tier.turned size.toNat ≤ w.tier.turned.warmSize := Nat.not_le.2 hfull
  refine ⟨{ w.tier.turned with warmOffset := warmStop w.tier.turned size.toNat }, ?_⟩
  simp only [step, btTierAlloc, if_neg (Int.not_lt.2 hindex), btSlabAlloc, hlist, warmAlloc,
    if_neg hfull', if_pos hvacant]

/-- The warm pool is used up by one request, and the slabs by hot requests for one byte each.  The
next hot request is answered from the heap; then everything is freed, and the block is still
there. -/
theorem hot_block_is_lost :
    ∃ t acts w, btTierInit oneMegabyte (fun _ => none) allThere = some t ∧
      run (step oneMegabyte) (start t) acts = some w ∧ w.out = [] ∧
      (∃ b ∈ w.heap, b.tier = .hot) ∧ ¬ Restored oneMegabyte w := by
  -- the warm pool is used up
  obtain ⟨t, w₁, hinit, hstep₁, hwrap₁, hend₁, hoffset₁, hnext₁, hheap₁⟩ : ∃ t w₁,
      btTierInit oneMegabyte (fun _ => none) allThere = some t ∧
      step oneMegabyte (start t) (.alloc .warm 1048576 none) = some w₁ ∧
      NoWrap (start t) (.alloc .warm 1048576 none) ∧
      NotAtEnd (start t) (.alloc .warm 1048576 none) ∧
      w₁.tier.warmOffset = 2 ^ 20 ∧ w₁.tier.hotNext = 0 ∧ w₁.heap = [] :=
    ⟨_, _, rfl, rfl, by decide, by decide, by decide, rfl, rfl⟩
  have hkept₁ := step_kept (btTierInit_clean hinit).kept hwrap₁ hend₁ hstep₁
  -- the slabs are used up
  have hblocks : freeBlocks oneMegabyte w₁.out ≤ 16384 :=
    (Finset.sum_le_sum fun i _ => Nat.sub_le _ _).trans (by decide)
  obtain ⟨n, w₂, hrun₂, -, hkept₂, hindex, hlist, hoffset₂, hheap₂⟩ :=
    exhaust hkept₁ hnext₁.ge (by omega)
  rw [hoffset₁] at hoffset₂
  rw [hheap₁] at hheap₂
  -- the heap answers
  have hsize : w₂.tier.warmSize = 2 ^ 20 := hkept₂.size
  have hfull : w₂.tier.warmSize < warmStop w₂.tier (1 : UInt64).toNat := by
    rw [warmStop, hsize, hoffset₂]
    decide
  have hvacant : Vacant oneMegabyte w₂.heap (2 ^ 40) (1 : UInt64).toNat := by
    rw [hheap₂]
    decide
  obtain ⟨t₃, hstep₃⟩ := step_falls hindex hlist hfull hvacant
  have hrequest : warmRequest w₂.tier (.alloc .hot 1 (some (2 ^ 40))) = some 1 :=
    if_pos ⟨hindex, hlist⟩
  have hkept₃ := step_kept hkept₂ (a := .alloc .hot 1 (some (2 ^ 40)))
    (fun m hm => .inl (Option.some.inj (hrequest.symm.trans hm) ▸ hfull))
    (fun m hm hzero => absurd (hzero.1 ▸ Option.some.inj (hrequest.symm.trans hm)) (by decide))
    hstep₃
  -- everything is freed
  obtain ⟨acts, w₄, hrun₄, hout, hmem⟩ := free_all hkept₃ List.mem_cons_self rfl
  refine ⟨t, .alloc .warm 1048576 none :: (List.replicate n (.alloc .hot 1 none) ++
    .alloc .hot 1 (some (2 ^ 40)) :: acts), w₄, hinit, ?_, hout, ⟨_, hmem, rfl⟩,
    fun h => (h.heap _ hmem).1 rfl⟩
  rw [run_cons_eq hstep₁, run_append_eq hrun₂, run_cons_eq hstep₃]
  exact hrun₄

end MemoryTier
