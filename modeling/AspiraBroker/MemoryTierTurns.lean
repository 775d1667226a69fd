/-
**Whose turn it is to answer a hot request.**

A hot request looks at one slab only, the one that the turn counter `g_hot_next` names, and goes on
to the warm pool if that slab has no free block.  The slabs start with equally many blocks and give
them out in turn, so as long as nothing is given back they run out together.  But a free returns a
block to its own slab, whichever slab has its turn next, and from then on a request can find the
slab of its turn exhausted while another one has blocks.  They do run out together in every run in
which blocks are given back in turn as well: by a slab that has at least as many blocks in use as
every other slab, and more than those whose turn comes before its own.

The turn counter is a signed integer of 32 bits that wraps around to negative numbers, for which
the remainder of C is negative.  The first time that this happens is at the request after `2 ^ 31`
others and one more, since `- 2 ^ 31` is still divisible by 8.

Main definitions:

* `MemoryTier.Tier.turnSlab`, `MemoryTier.inUse` — the slab whose turn it is, and the blocks in use;
* `MemoryTier.FallsBackExhausted` — a hot request leaves the slabs only if all are exhausted;
* `MemoryTier.GivenBackInTurn` — the condition;
* `MemoryTier.Balanced` — the invariant;
* `MemoryTier.IndexInRange`, `MemoryTier.hotCalls` — the index of a hot request, and how many there
  are.

Main results:

* `MemoryTier.step_balanced` — giving out and giving back in turn keep the slabs level;
* `MemoryTier.falls_back_exhausted` — **if blocks are given back in turn, a hot request leaves the
  slabs only if all are exhausted**;
* `MemoryTier.index_in_range_iff` — **the index is in range exactly up to the hot request with the
  number `2 ^ 31`**;
* `MemoryTier.falls_back_with_free_block`, `MemoryTier.index_leaves_range` — what goes wrong.
-/

import AspiraBroker.MemoryTierLeaks
import AspiraBroker.RoundRobin

set_option relaxedAutoImplicit false
set_option autoImplicit false

namespace MemoryTier

open AlignedCells LinkedChain RoundRobin SlabAllocator Transition

variable {hotPoolMb warmPoolMb : ℕ} {mem : Memory hotPoolMb warmPoolMb} {w w' : World}

/-! ### The turn counter -/

/-- Whether the call is a hot request. -/
def Act.isHot : Act → Bool
  | .alloc .hot _ _ => true
  | _ => false

/-- What a request does to the allocator does not depend on the heap. -/
theorem tier_of_step {tier : Kind} {size : UInt64} {answer : Option ℕ}
    (hstep : step mem w (.alloc tier size answer) = some w') :
    w'.tier = (btTierAlloc w.tier tier size.toNat).1 := by
  simp only [step] at hstep
  split at hstep
  · next hdone =>
      obtain rfl := Option.some.inj hstep
      rw [hdone]
  · next hdone =>
      obtain rfl := Option.some.inj hstep
      rw [hdone]
  · next hdone =>
      obtain rfl := Option.some.inj hstep
      rw [hdone]
  · next hdone =>
      rw [hdone]
      cases answer with
      | none =>
          obtain rfl := Option.some.inj hstep
          rfl
      | some p =>
          simp only [Option.ite_none_right_eq_some, Option.some.injEq] at hstep
          obtain ⟨-, rfl⟩ := hstep
          rfl

/-- A free changes nothing but the slabs. -/
theorem tier_of_free {r : Grant} (hstep : step mem w (.free r) = some w') :
    ∃ s, w'.tier = { w.tier with slabs := s } := by
  simp only [step, Option.ite_none_right_eq_some, Option.some.injEq] at hstep
  obtain ⟨-, rfl⟩ := hstep
  change ∃ s, (btTierFree w.tier r.tier r.ptr).1 = { w.tier with slabs := s }
  unfold btTierFree
  split
  · split
    · exact ⟨_, rfl⟩
    · exact ⟨w.tier.slabs, rfl⟩
  · exact ⟨w.tier.slabs, rfl⟩
  · exact ⟨w.tier.slabs, rfl⟩
  · exact ⟨w.tier.slabs, rfl⟩

/-- So does a write. -/
theorem tier_of_write {r : Grant} {v : Option ℕ} (hstep : step mem w (.write r v) = some w') :
    ∃ s, w'.tier = { w.tier with slabs := s } := by
  simp only [step, Option.ite_none_right_eq_some] at hstep
  obtain ⟨-, hstep⟩ := hstep
  split at hstep
  · obtain rfl := Option.some.inj hstep
    exact ⟨_, rfl⟩
  · obtain rfl := Option.some.inj hstep
    exact ⟨w.tier.slabs, rfl⟩
  · obtain rfl := Option.some.inj hstep
    exact ⟨w.tier.slabs, rfl⟩

theorem hotNext_warmAlloc (t : Tier) (size : ℕ) : (warmAlloc t size).1.hotNext = t.hotNext := by
  unfold warmAlloc
  split <;> rfl

/-- Every hot request moves the counter, and nothing else does. -/
theorem hotNext_of_step {a : Act} (hstep : step mem w a = some w') :
    w'.tier.hotNext = if a.isHot then (w.tier.hotNext + 1).bmod (2 ^ 32) else w.tier.hotNext := by
  cases a with
  | alloc tier size answer =>
      rw [tier_of_step hstep]
      cases tier with
      | hot =>
          simp only [btTierAlloc]
          split
          · rfl
          · split
            · rfl
            · exact hotNext_warmAlloc _ _
      | warm => exact hotNext_warmAlloc _ _
      | cold => rfl
      | other => rfl
  | free r =>
      obtain ⟨s, htier⟩ := tier_of_free hstep
      rw [htier]
      rfl
  | write r v =>
      obtain ⟨s, htier⟩ := tier_of_write hstep
      rw [htier]
      rfl

/-! ### The slabs take turns -/

/-- The number of blocks of a slab that are in use. -/
def inUse (w : World) (i : Fin 8) : ℕ := (heldIn w.out i).length

/-- The request was not answered by a slab. -/
def Served.Below : Served → Prop
  | .warm _ | .heap => True
  | .slab _ _ | .wild => False

/-- A hot request is passed on to the warm pool and the heap only if no slab has a free block. -/
def FallsBackExhausted (w : World) : Act → Prop
  | .alloc .hot size _ => (btTierAlloc w.tier .hot size.toNat).2.Below →
      ∀ i, (w.tier.slabs i).freeList = none
  | _ => True

/-- A block is given back by a slab that has at least as many blocks in use as every other slab, and
more than those whose turn comes before its own. -/
def GivenBackInTurn (w : World) : Act → Prop
  | .free r => ∀ i, r.source = .slab i → Returns w.tier.turnSlab (inUse w) i
  | _ => True

instance (w : World) : ∀ a, Decidable (GivenBackInTurn w a)
  | .free r => inferInstanceAs
      (Decidable (∀ i, r.source = .slab i → Returns w.tier.turnSlab (inUse w) i))
  | .alloc _ _ _ | .write _ _ => isTrue trivial

/-- The books are in order, and the slabs have given out equally much, up to the turn. -/
structure Balanced (mem : Memory hotPoolMb warmPoolMb) (w : World) : Prop where
  kept : Kept mem w
  level : Level w.tier.turnSlab (inUse w)

theorem turnSlab_congr {t t' : Tier} (h : t'.hotNext = t.hotNext) : t'.turnSlab = t.turnSlab := by
  rw [Tier.turnSlab, Tier.turnSlab, h]

/-- An index that is not negative is the one of the slab whose turn it is. -/
theorem hotSlab_eq {t : Tier} (h : 0 ≤ t.hotIndex) : t.hotSlab = t.turnSlab := by
  have hmod := Int.tmod_eq_emod (a := t.hotNext) (b := 8)
  have hindex : 0 ≤ t.hotNext.tmod 8 := h
  have heq : t.hotNext.tmod 8 = t.hotNext % 8 := by
    split_ifs at hmod with hdiv
    · omega
    · omega
  rw [Tier.hotSlab, Tier.turnSlab, Tier.hotIndex, heq]

/-- After a hot request it is the turn of the next slab. -/
theorem turnSlab_succ {t t' : Tier} (h : t'.hotNext = (t.hotNext + 1).bmod (2 ^ 32)) :
    t'.turnSlab = t.turnSlab + 1 := by
  have hmod : t'.hotNext % 8 = (t.hotNext + 1) % 8 := by
    rw [h, Int.bmod_def]
    split <;> omega
  refine Fin.ext ?_
  rw [Tier.turnSlab, Tier.turnSlab, Fin.val_add]
  simp only [Fin.val_ofNat, hmod]
  change _ = ((t.hotNext % 8).toNat % 8 + 1) % 8
  omega

section Balance

/-- All slabs have equally many blocks. -/
theorem numBlocks_eq (i : Fin 8) :
    (hotLayout (mem.hot i)).numBlocks = hotPerSlab hotPoolMb / 64 := by
  change (mem.hot i).size / 64 = _
  rw [mem.hot_size]

theorem Kept.inUse_le (h : Kept mem w) (i : Fin 8) : inUse w i ≤ hotPerSlab hotPoolMb / 64 := by
  obtain ⟨l, hl⟩ := h.slabs i
  have hlen := hl.length
  rw [numBlocks_eq] at hlen
  unfold inUse
  omega

/-- A slab has no free block exactly if all its blocks are in use. -/
theorem Kept.freeList_eq_none_iff (h : Kept mem w) (i : Fin 8) :
    (w.tier.slabs i).freeList = none ↔ inUse w i = hotPerSlab hotPoolMb / 64 := by
  obtain ⟨l, hl⟩ := h.slabs i
  have hlen := hl.length
  rw [numBlocks_eq] at hlen
  rw [← hl.chain.eq_nil_iff, ← List.length_eq_zero_iff]
  unfold inUse
  omega

/-- If the slab whose turn it is has no free block, no slab has one. -/
theorem Balanced.exhausted (h : Balanced mem w)
    (hlist : (w.tier.slabs w.tier.turnSlab).freeList = none) (i : Fin 8) :
    inUse w i = hotPerSlab hotPoolMb / 64 :=
  h.level.eq_of_max h.kept.inUse_le ((h.kept.freeList_eq_none_iff _).1 hlist) i

/-- **A hot request leaves the slabs only if all are exhausted.** -/
theorem Balanced.fallsBackExhausted (h : Balanced mem w) {a : Act} (hbounds : InBounds w a) :
    FallsBackExhausted w a := by
  cases a with
  | alloc tier size answer =>
      cases tier with
      | hot =>
          intro hbelow i
          have hindex : ¬ w.tier.hotIndex < 0 := Int.not_lt.2 hbounds
          have hlist : (w.tier.slabs w.tier.hotSlab).freeList = none := by
            by_contra hsome
            obtain ⟨p, hp⟩ := Option.ne_none_iff_exists'.1 hsome
            simp only [btTierAlloc, if_neg hindex, btSlabAlloc, hp] at hbelow
            exact hbelow
          rw [hotSlab_eq hbounds] at hlist
          exact (h.kept.freeList_eq_none_iff i).2 (h.exhausted hlist i)
      | warm => trivial
      | cold => trivial
      | other => trivial
  | free r => trivial
  | write r v => trivial

theorem inUse_cons_of_ne {r : Grant} (h : ∀ i, r.source ≠ .slab i) {t : Tier} {heap : List Block}
    {wild : Bool} : inUse ⟨t, heap, r :: w.out, wild⟩ = inUse w := by
  funext i
  rw [inUse, heldIn_cons_of_ne (h i)]
  rfl

/-- A request that no slab answers: the turn moves on only if all slabs are exhausted. -/
theorem Balanced.pass (h : Balanced mem w) {a : Act} (hkept : Kept mem w')
    (hinUse : inUse w' = inUse w) (hstep : step mem w a = some w')
    (hlist : a.isHot = true → (w.tier.slabs w.tier.turnSlab).freeList = none) :
    Balanced mem w' := by
  have hnext := hotNext_of_step hstep
  refine ⟨hkept, ?_⟩
  rw [hinUse]
  cases hhot : a.isHot with
  | true => exact level_of_eq fun i => h.exhausted (hlist hhot) i
  | false =>
      rw [hhot] at hnext
      rw [turnSlab_congr hnext]
      exact h.level

/-- A slab answers in its turn. -/
theorem Balanced.slab (h : Balanced mem w) {t : Tier} {r : Grant}
    (hkept : Kept mem { w with tier := t, out := r :: w.out })
    (hsource : r.source = .slab w.tier.turnSlab)
    (hnext : t.hotNext = (w.tier.hotNext + 1).bmod (2 ^ 32)) :
    Balanced mem { w with tier := t, out := r :: w.out } := by
  refine ⟨hkept, ?_⟩
  have hinUse : inUse { w with tier := t, out := r :: w.out } =
      Function.update (inUse w) w.tier.turnSlab (inUse w w.tier.turnSlab + 1) := by
    funext i
    by_cases hi : i = w.tier.turnSlab
    · rw [hi, Function.update_self, inUse, heldIn_cons hsource, List.length_cons]
      rfl
    · rw [Function.update_of_ne hi, inUse, heldIn_cons_of_ne]
      · rfl
      · rw [hsource]
        exact fun heq => hi (Source.slab.inj heq).symm
  change Level t.turnSlab _
  rw [hinUse, turnSlab_succ hnext]
  exact h.level.take

/-- A free gives back one block of the slab that it came from. -/
theorem inUse_release_self {r : Grant} (hr : r ∈ w.out) {j : Fin 8} (hsource : r.source = .slab j) :
    inUse w j = inUse (w.release r) j + 1 := by
  have hlen := (heldIn_perm (List.perm_cons_erase hr) j).length_eq
  rwa [heldIn_cons hsource] at hlen

theorem inUse_release_of_ne {r : Grant} (hr : r ∈ w.out) {i : Fin 8}
    (hsource : r.source ≠ .slab i) : inUse (w.release r) i = inUse w i := by
  have hlen := (heldIn_perm (List.perm_cons_erase hr) i).length_eq
  rw [heldIn_cons_of_ne hsource] at hlen
  exact hlen.symm

/-- A block is given back in turn, or something that did not come from a slab. -/
theorem Balanced.release (h : Balanced mem w) {r : Grant} (hr : r ∈ w.out)
    (hturn : GivenBackInTurn w (.free r)) : Balanced mem (w.release r) := by
  have hstep : step mem w (.free r) = some (w.release r) := if_pos hr
  have hnext : (w.release r).tier.hotNext = w.tier.hotNext := hotNext_of_step hstep
  refine ⟨h.kept.release hr, ?_⟩
  rw [turnSlab_congr hnext]
  cases hsource : r.source with
  | slab j =>
      have hinUse : inUse (w.release r) =
          Function.update (inUse w) j (inUse (w.release r) j) := by
        refine (Function.update_eq_iff.2 ⟨rfl, fun i hi => ?_⟩).symm
        exact (inUse_release_of_ne hr (by simpa [hsource] using hi.symm)).symm
      rw [hinUse]
      exact h.level.give (hturn j hsource) (inUse_release_self hr hsource)
  | warm | heap =>
      have hinUse : inUse (w.release r) = inUse w :=
        funext fun i => inUse_release_of_ne hr (by simp [hsource])
      rw [hinUse]
      exact h.level

/-- A hot request that comes to the warm pool has found the slab of its turn exhausted. -/
theorem exhausted_of_request {a : Act} (hhot : a.isHot) {n : ℕ}
    (hrequest : warmRequest w.tier a = some n) :
    (w.tier.slabs w.tier.turnSlab).freeList = none := by
  cases a with
  | alloc tier size answer =>
      cases tier with
      | hot =>
          simp only [warmRequest, Option.ite_none_right_eq_some] at hrequest
          obtain ⟨⟨hindex, hlist⟩, -⟩ := hrequest
          rwa [hotSlab_eq hindex] at hlist
      | _ => cases hhot
  | _ => cases hhot

/-- So has one that is passed on to the heap. -/
theorem exhausted_of_falls {tier : Kind} {size : UInt64} {answer : Option ℕ}
    (hhot : (Act.alloc tier size answer).isHot) {n : ℕ} (hfalls : Falls w.tier tier n) :
    (w.tier.slabs w.tier.turnSlab).freeList = none := by
  cases tier with
  | hot =>
      obtain ⟨hindex, hlist, -⟩ := hfalls
      rwa [hotSlab_eq hindex] at hlist
  | _ => cases hhot

/-- **Giving out and giving back in turn keep the slabs level.** -/
theorem step_balanced (h : Balanced mem w) {a : Act} (hregular : Regular w a)
    (hbounds : InBounds w a) (hturn : GivenBackInTurn w a) (hstep : step mem w a = some w') :
    Balanced mem w' := by
  have hkept := step_kept h.kept hregular.1 hregular.2 hstep
  have hnext := hotNext_of_step hstep
  cases a with
  | alloc tier size answer =>
      cases requests_of_step hstep with
      | wild htier hindex =>
          subst htier
          exact absurd hbounds (Int.not_le.2 hindex)
      | slab htier hindex halloc =>
          subst htier
          exact h.slab hkept (congrArg Source.slab (hotSlab_eq hindex)) hnext
      | warm hrequest hserved hslabs hpool hsize hoffset =>
          exact h.pass hkept (inUse_cons_of_ne (by simp)) hstep fun hhot =>
            exhausted_of_request hhot hrequest
      | refused hsteady hfalls hanswer =>
          exact h.pass hkept rfl hstep fun hhot => exhausted_of_falls hhot hfalls
      | heap hsteady hfalls hanswer hvacant =>
          exact h.pass hkept (inUse_cons_of_ne (by simp)) hstep fun hhot =>
            exhausted_of_falls hhot hfalls
  | free r =>
      simp only [step, Option.ite_none_right_eq_some, Option.some.injEq] at hstep
      obtain ⟨hr, rfl⟩ := hstep
      exact h.release hr hturn
  | write r v =>
      obtain ⟨t, rfl⟩ := write_tier hstep
      exact h.pass hkept rfl hstep fun hhot => by cases hhot

/-- At the start all blocks are free. -/
theorem start_balanced {words : ℕ → Option ℕ} {ok : Answers} {t : Tier}
    (hinit : btTierInit mem words ok = some t) : Balanced mem (start t) :=
  ⟨(btTierInit_clean hinit).kept, level_of_eq fun _ => rfl⟩

end Balance

/-- A call of a run in which blocks are given back in turn, the index is not negative, and nothing
wraps around in the warm pool. -/
def Orderly (w : World) (a : Act) : Prop := Regular w a ∧ InBounds w a ∧ GivenBackInTurn w a

instance (w : World) (a : Act) : Decidable (Orderly w a) :=
  inferInstanceAs (Decidable (Regular w a ∧ InBounds w a ∧ GivenBackInTurn w a))

/-- **If blocks are given back in turn, a hot request leaves the slabs only if all are exhausted**:
for every size of the pools, every memory that the platform gives, and every sequence of requests,
frees and writes. -/
theorem falls_back_exhausted (mem : Memory hotPoolMb warmPoolMb) (words : ℕ → Option ℕ)
    {ok : Answers} {t : Tier} (hinit : btTierInit mem words ok = some t) (acts : List Act)
    (horderly : Along (step mem) Orderly (start t) acts) :
    Along (step mem) FallsBackExhausted (start t) acts := by
  refine along_of_invariant (I := Balanced mem) ?_ ?_ (start_balanced hinit) horderly
  · rintro w a w' h ⟨hregular, hbounds, hturn⟩ hstep
    exact step_balanced h hregular hbounds hturn hstep
  · rintro w a h ⟨-, hbounds, -⟩
    exact h.fallsBackExhausted hbounds

/-- Two hot requests whose blocks are given back in turn to the slabs `i` and `j`. -/
def backInTurn (i j : Fin 8) : List Act :=
  [.alloc .hot 64 none, .alloc .hot 64 none, .free ⟨.hot, 1048576 + 2047 * 64, 64, .slab i⟩,
    .free ⟨.hot, 1048576 * 2 + 2047 * 64, 64, .slab j⟩, .alloc .hot 64 none]

/-- The hypotheses of `MemoryTier.falls_back_exhausted` hold of two requests and their frees. -/
theorem falls_back_exhausted_in_turn :
    ∃ t, btTierInit oneMegabyte (fun _ => none) allThere = some t ∧
      Along (step oneMegabyte) Orderly (start t) (backInTurn 0 1) ∧
      Along (step oneMegabyte) FallsBackExhausted (start t) (backInTurn 0 1) :=
  ⟨_, rfl, by decide +kernel, falls_back_exhausted oneMegabyte (fun _ => none)
    (by rfl : btTierInit oneMegabyte (fun _ => none) allThere = some _) (backInTurn 0 1)
    (by decide +kernel)⟩

/-- A request that its slab answers does not come to the warm pool. -/
theorem orderly_of_slabAnswers {a : Act} (h : SlabAnswers w a) : Orderly w a := by
  cases a with
  | alloc tier size answer =>
      cases tier with
      | hot =>
          have hnone : warmRequest w.tier (.alloc .hot size answer) = none :=
            if_neg fun hcon => h.2 hcon.2
          refine ⟨⟨fun n hn => ?_, fun n hn => ?_⟩, h.1, trivial⟩
          · cases hnone.symm.trans hn
          · cases hnone.symm.trans hn
      | _ => cases h
  | free r => cases h
  | write r v => cases h

/-- A hot request whose slab is exhausted is passed on. -/
theorem below_of_exhausted {t : Tier} (hindex : 0 ≤ t.hotIndex)
    (hlist : (t.slabs t.hotSlab).freeList = none) (size : ℕ) :
    (btTierAlloc t .hot size).2.Below := by
  simp only [btTierAlloc, if_neg (Int.not_lt.2 hindex), btSlabAlloc, hlist, warmAlloc]
  split <;> trivial

/-- Level slabs are used up by hot requests, all at the same time. -/
theorem Balanced.use_up (h : Balanced mem w) (hlo : 0 ≤ w.tier.hotNext)
    (hhi : w.tier.hotNext + freeBlocks mem w.out + 1 < 2 ^ 31) :
    ∃ n w', run (step mem) w (List.replicate n (.alloc .hot 1 none)) = some w' ∧
      Kept mem w' ∧ 0 ≤ w'.tier.hotIndex ∧ ∀ i, inUse w' i = hotPerSlab hotPoolMb / 64 := by
  obtain ⟨n, w', hrun, halong, hkept, hindex, hlist, -⟩ := exhaust h.kept hlo hhi
  have hbalanced : Balanced mem w' := by
    refine run_induction (I := Balanced mem) ?_ h halong hrun
    intro v a v' hv hanswers hstep
    obtain ⟨hregular, hbounds, hturn⟩ := orderly_of_slabAnswers hanswers
    exact step_balanced hv hregular hbounds hturn hstep
  rw [hotSlab_eq hindex] at hlist
  exact ⟨n, w', hrun, hkept, hindex, hbalanced.exhausted hlist⟩

/-- A block that is in use can be given back. -/
theorem exists_grant {i : Fin 8} (h : 0 < inUse w i) : ∃ r ∈ w.out, r.source = .slab i := by
  obtain ⟨p, hp⟩ := List.exists_mem_of_length_pos h
  obtain ⟨r, hr, -⟩ := List.mem_map.1 hp
  obtain ⟨hr, hsource⟩ := List.mem_filter.1 hr
  exact ⟨r, hr, by simpa using hsource⟩

/-- When all slabs are used up and another slab than the one whose turn it is gets a block back, the
next hot request is passed on all the same. -/
theorem Kept.passed_on (h : Kept mem w) (hindex : 0 ≤ w.tier.hotIndex)
    (hfull : ∀ i, inUse w i = hotPerSlab hotPoolMb / 64) {r : Grant} (hr : r ∈ w.out) {j : Fin 8}
    (hsource : r.source = .slab j) (hj : j ≠ w.tier.turnSlab) (size : ℕ) :
    (btTierAlloc (w.release r).tier .hot size).2.Below ∧
      ((w.release r).tier.slabs j).freeList ≠ none := by
  have hstep : step mem w (.free r) = some (w.release r) := if_pos hr
  have hnext : (w.release r).tier.hotNext = w.tier.hotNext := hotNext_of_step hstep
  have hkept := h.release hr
  have hindex' : 0 ≤ (w.release r).tier.hotIndex := by
    rw [Tier.hotIndex, hnext]
    exact hindex
  constructor
  · refine below_of_exhausted hindex' ?_ size
    rw [hotSlab_eq hindex', turnSlab_congr hnext, hkept.freeList_eq_none_iff,
      inUse_release_of_ne hr (by simpa [hsource] using hj)]
    exact hfull _
  · rw [ne_eq, hkept.freeList_eq_none_iff]
    have hself := inUse_release_self hr hsource
    have hj := hfull j
    omega

/-- All slabs are used up by hot requests for one byte each, and a block is given back by the slab
that comes after the one whose turn it is.  The next hot request is passed on to the warm pool. -/
theorem falls_back_with_free_block :
    ∃ t acts w, btTierInit oneMegabyte (fun _ => none) allThere = some t ∧
      run (step oneMegabyte) (start t) acts = some w ∧
      (btTierAlloc w.tier .hot 64).2.Below ∧ (∃ i, (w.tier.slabs i).freeList ≠ none) ∧
      ¬ FallsBackExhausted w (.alloc .hot 64 none) := by
  obtain ⟨t, hinit, hnext⟩ : ∃ t, btTierInit oneMegabyte (fun _ => none) allThere = some t ∧
      t.hotNext = 0 := ⟨_, rfl, rfl⟩
  have hblocks : freeBlocks oneMegabyte (start t).out ≤ 16384 :=
    (Finset.sum_le_sum fun i _ => Nat.sub_le _ _).trans (by decide)
  obtain ⟨n, w, hrun, hkept, hindex, hfull⟩ :=
    (start_balanced hinit).use_up hnext.ge (by change t.hotNext + _ + 1 < 2 ^ 31; omega)
  have hpos : 0 < inUse w (w.tier.turnSlab + 1) := by
    rw [hfull]
    decide
  obtain ⟨r, hr, hsource⟩ := exists_grant hpos
  obtain ⟨hbelow, hfree⟩ := hkept.passed_on hindex hfull hr hsource (by simp) 64
  have hstep : step oneMegabyte w (.free r) = some (w.release r) := if_pos hr
  refine ⟨t, List.replicate n (.alloc .hot 1 none) ++ [.free r], w.release r, hinit, ?_, hbelow,
    ⟨_, hfree⟩, fun h => hfree (h hbelow _)⟩
  rw [run_append_eq hrun, run_cons_eq hstep]
  rfl

/-! ### The index in the long run -/

/-- The index of a hot request is one of the eight slabs'. -/
def IndexInRange (w : World) : Act → Prop
  | .alloc .hot _ _ => 0 ≤ w.tier.hotIndex ∧ w.tier.hotIndex < 8
  | _ => True

/-- The number of hot requests. -/
def hotCalls (acts : List Act) : ℕ := acts.countP Act.isHot

theorem hotCalls_cons (a : Act) (acts : List Act) :
    hotCalls (a :: acts) = (if a.isHot then 1 else 0) + hotCalls acts := by
  rw [hotCalls, List.countP_cons, Nat.add_comm]
  rfl

theorem indexInRange_iff (w : World) (a : Act) :
    IndexInRange w a ↔ (a.isHot → 0 ≤ w.tier.hotIndex) := by
  have hlt : w.tier.hotIndex < 8 := Int.tmod_lt_of_pos _ (by decide)
  cases a with
  | alloc tier size answer =>
      cases tier with
      | hot => simp [IndexInRange, Act.isHot, hlt]
      | _ => simp [IndexInRange, Act.isHot]
  | _ => simp [IndexInRange, Act.isHot]

/-- The counter after a step, as the number of hot requests so far. -/
theorem hotNext_eq_of_step {a : Act} (hstep : step mem w a = some w') {k : ℕ}
    (hnext : w.tier.hotNext = (k : ℤ).bmod (2 ^ 32)) :
    w'.tier.hotNext = ((k + if a.isHot then 1 else 0 : ℕ) : ℤ).bmod (2 ^ 32) := by
  rw [hotNext_of_step hstep]
  split
  · rw [hnext, Int.bmod_add_bmod, Int.natCast_succ]
  · rw [hnext, Nat.add_zero]

theorem hotNext_eq_of_run {acts : List Act} {k : ℕ}
    (hnext : w.tier.hotNext = (k : ℤ).bmod (2 ^ 32)) (hrun : run (step mem) w acts = some w') :
    w'.tier.hotNext = ((k + hotCalls acts : ℕ) : ℤ).bmod (2 ^ 32) := by
  induction acts generalizing w k with
  | nil =>
      obtain rfl := Option.some.inj hrun
      exact hnext
  | cons a acts ih =>
      obtain ⟨v, hstep, hrun⟩ := run_cons_iff.1 hrun
      rw [ih (hotNext_eq_of_step hstep hnext) hrun, hotCalls_cons, Nat.add_assoc]

/-- The indices of a run are the remainders of the numbers of its hot requests. -/
theorem along_indexInRange_iff {acts : List Act} {k : ℕ}
    (hnext : w.tier.hotNext = (k : ℤ).bmod (2 ^ 32)) (hrun : run (step mem) w acts = some w') :
    Along (step mem) IndexInRange w acts ↔
      ∀ j, k ≤ j → j < k + hotCalls acts → 0 ≤ ((j : ℤ).bmod (2 ^ 32)).tmod 8 := by
  induction acts generalizing w k with
  | nil => exact iff_of_true (along_nil w) fun j hle hlt => absurd hlt (Nat.not_lt.2 hle)
  | cons a acts ih =>
      obtain ⟨v, hstep, hrun⟩ := run_cons_iff.1 hrun
      have hrest : (∀ v', step mem w a = some v' → Along (step mem) IndexInRange v' acts) ↔
          Along (step mem) IndexInRange v acts :=
        ⟨fun h => h v hstep, fun h v' hv' => Option.some.inj (hstep.symm.trans hv') ▸ h⟩
      rw [along_cons_iff, hrest, ih (hotNext_eq_of_step hstep hnext) hrun, indexInRange_iff,
        Tier.hotIndex, hnext, hotCalls_cons]
      cases a.isHot with
      | false => simp
      | true =>
          simp only [if_true, true_imp_iff]
          constructor
          · rintro ⟨hfirst, hlater⟩ j hle hlt
            rcases Nat.eq_or_lt_of_le hle with rfl | hlt'
            · exact hfirst
            · exact hlater j hlt' (by omega)
          · intro hall
            exact ⟨hall k le_rfl (by omega), fun j hle hlt => hall j (by omega) (by omega)⟩

/-- The first number that gives a negative remainder is `2 ^ 31 + 1`: the counter is `- 2 ^ 31` one
call before, which 8 divides. -/
theorem forall_tmod_nonneg_iff (n : ℕ) :
    (∀ j < n, 0 ≤ ((j : ℤ).bmod (2 ^ 32)).tmod 8) ↔ n ≤ 2 ^ 31 + 1 := by
  constructor
  · intro hall
    by_contra hlt
    exact absurd (hall (2 ^ 31 + 1) (Nat.not_le.1 hlt)) (by decide)
  · intro hn j hj
    rcases Nat.lt_or_ge j (2 ^ 31) with hlt | hge
    · rw [Int.bmod_eq_of_le (by omega) (by omega)]
      exact Int.tmod_nonneg _ (Int.natCast_nonneg j)
    · obtain rfl : j = 2 ^ 31 := by omega
      decide

theorem hotNext_init {words : ℕ → Option ℕ} {ok : Answers} {t : Tier}
    (hinit : btTierInit mem words ok = some t) : t.hotNext = 0 := by
  simp only [btTierInit, Option.ite_none_right_eq_some, Option.dite_none_right_eq_some,
    Option.some.injEq] at hinit
  obtain ⟨-, -, -, rfl⟩ := hinit
  rfl

/-- **The index is in range exactly up to the hot request with the number `2 ^ 31`**, counted from
0: for every size of the pools, every memory that the platform gives, and every sequence of
requests, frees and writes. -/
theorem index_in_range_iff (mem : Memory hotPoolMb warmPoolMb) (words : ℕ → Option ℕ)
    {ok : Answers} {t : Tier} (hinit : btTierInit mem words ok = some t) {acts : List Act}
    {w : World} (hrun : run (step mem) (start t) acts = some w) :
    Along (step mem) IndexInRange (start t) acts ↔ hotCalls acts ≤ 2 ^ 31 + 1 := by
  have hnext : (start t).tier.hotNext = ((0 : ℕ) : ℤ).bmod (2 ^ 32) := hotNext_init hinit
  rw [along_indexInRange_iff hnext hrun, ← forall_tmod_nonneg_iff, Nat.zero_add]
  simp only [Nat.zero_le, true_imp_iff]

/-- The hypotheses of `MemoryTier.index_in_range_iff` hold of three requests and two frees. -/
theorem index_in_range_in_turn :
    ∃ t w, btTierInit oneMegabyte (fun _ => none) allThere = some t ∧
      run (step oneMegabyte) (start t) (backInTurn 0 1) = some w ∧
      Along (step oneMegabyte) IndexInRange (start t) (backInTurn 0 1) := by
  obtain ⟨t, hinit, hsome⟩ : ∃ t, btTierInit oneMegabyte (fun _ => none) allThere = some t ∧
      (run (step oneMegabyte) (start t) (backInTurn 0 1)).isSome := ⟨_, rfl, by decide +kernel⟩
  obtain ⟨w, hrun⟩ := Option.isSome_iff_exists.1 hsome
  exact ⟨t, w, hinit, hrun, (index_in_range_iff oneMegabyte _ hinit hrun).2 (by decide)⟩

/-- A request goes through, whether the heap has memory or not. -/
theorem exists_step_alloc (mem : Memory hotPoolMb warmPoolMb) (w : World) (tier : Kind)
    (size : UInt64) : ∃ w', step mem w (.alloc tier size none) = some w' := by
  simp only [step]
  split <;> exact ⟨_, rfl⟩

theorem exists_run_alloc (mem : Memory hotPoolMb warmPoolMb) (tier : Kind) (size : UInt64) (n : ℕ)
    (w : World) : ∃ w', run (step mem) w (List.replicate n (.alloc tier size none)) = some w' := by
  induction n generalizing w with
  | zero => exact ⟨w, rfl⟩
  | succ n ih =>
      obtain ⟨v, hstep⟩ := exists_step_alloc mem w tier size
      obtain ⟨w', hrun⟩ := ih v
      exact ⟨w', (run_cons_eq hstep _).trans hrun⟩

/-- After `2 ^ 31 + 1` hot requests, the index of the next one is `-7`. -/
theorem index_leaves_range :
    ∃ t w, btTierInit oneMegabyte (fun _ => none) allThere = some t ∧
      run (step oneMegabyte) (start t) (List.replicate (2 ^ 31 + 1) (.alloc .hot 64 none)) =
        some w ∧
      w.tier.hotIndex = -7 ∧ ¬ IndexInRange w (.alloc .hot 64 none) := by
  obtain ⟨t, hinit⟩ : ∃ t, btTierInit oneMegabyte (fun _ => none) allThere = some t := ⟨_, rfl⟩
  obtain ⟨w, hrun⟩ := exists_run_alloc oneMegabyte .hot 64 (2 ^ 31 + 1) (start t)
  have hnext : (start t).tier.hotNext = ((0 : ℕ) : ℤ).bmod (2 ^ 32) := hotNext_init hinit
  have hindex : w.tier.hotIndex = -7 := by
    rw [Tier.hotIndex, hotNext_eq_of_run hnext hrun, hotCalls, List.countP_replicate]
    decide
  refine ⟨t, w, hinit, hrun, hindex, fun h => ?_⟩
  rw [IndexInRange, hindex] at h
  exact absurd h.1 (by decide)

end MemoryTier
