/-
**The warm pool after a request that did not fit.**

`MemoryTier.warmAlloc` moves the offset of the warm pool before it compares it with the size of the
pool, and it does not move it back.  So a request that does not fit is passed on to the heap, and
the offset stays behind the end of the pool.  Whatever room there was is lost with it: every later
request finds the pool exhausted, however small it is, until the offset wraps around at `2 ^ 64`.
A request that makes it wrap around passes the test again, but its pointer lies outside of the pool.

So a request for `m` bytes that had room before is never served after such a request, and the pool
keeps its promise exactly if requests are passed on to the heap only when `m` bytes did not fit any
more.

Main definitions:

* `MemoryTier.ServedInPool` — a warm request gets memory of the pool;
* `MemoryTier.Intact` — after a request that is passed on, whatever had room before is served;
* `MemoryTier.Fitting` — the condition;
* `MemoryTier.WarmMoved` — what a call does to the warm pool.

Main results:

* `MemoryTier.warmMoved_of_step` — a request that comes to the pool moves its offset, and nothing
  else does;
* `MemoryTier.exhausted_for_good` — once the offset is behind the end, nothing is served from the
  pool as long as it does not wrap around;
* `MemoryTier.fallback_intact_iff` — **the pool stays intact exactly if every request fits that
  comes to it while it has room**;
* `MemoryTier.room_lost` — a request for one byte more than the pool has, and then one for 64.
-/

import AspiraBroker.BumpPointer
import AspiraBroker.MemoryTierTurns

set_option relaxedAutoImplicit false
set_option autoImplicit false

namespace MemoryTier

open AlignedCells BumpPointer SlabAllocator Transition

variable {hotPoolMb warmPoolMb : ℕ} {mem : Memory hotPoolMb warmPoolMb} {w w' : World}

/-! ### What a call does to the pool -/

/-- The pool stays where it is, and its offset moves if a request comes to it. -/
structure WarmMoved (t t' : Tier) (request : Option ℕ) : Prop where
  pool : t'.warmPool = t.warmPool
  size : t'.warmSize = t.warmSize
  offset : t'.warmOffset = request.elim t.warmOffset (warmStop t)

theorem warmMoved_warmAlloc (t : Tier) (size : ℕ) :
    WarmMoved t (warmAlloc t size).1 (some size) := by
  unfold warmAlloc
  split
  · exact ⟨rfl, rfl, rfl⟩
  · exact ⟨rfl, rfl, rfl⟩

theorem warmMoved_btTierAlloc (t : Tier) (tier : Kind) (size : UInt64) (answer : Option ℕ) :
    WarmMoved t (btTierAlloc t tier size.toNat).1 (warmRequest t (.alloc tier size answer)) := by
  cases tier with
  | hot =>
      simp only [btTierAlloc, warmRequest]
      by_cases hindex : t.hotIndex < 0
      · rw [if_pos hindex, if_neg fun h => Int.not_le.2 hindex h.1]
        exact ⟨rfl, rfl, rfl⟩
      · rw [if_neg hindex]
        cases hlist : (t.slabs t.hotSlab).freeList with
        | none =>
            rw [if_pos ⟨Int.not_lt.1 hindex, rfl⟩]
            simp only [btSlabAlloc, hlist]
            obtain ⟨hpool, hsize, hoffset⟩ := warmMoved_warmAlloc t.turned size.toNat
            exact ⟨hpool, hsize, hoffset⟩
        | some p =>
            rw [if_neg fun h => Option.some_ne_none p h.2]
            simp only [btSlabAlloc, hlist]
            exact ⟨rfl, rfl, rfl⟩
  | warm => exact warmMoved_warmAlloc t size.toNat
  | cold => exact ⟨rfl, rfl, rfl⟩
  | other => exact ⟨rfl, rfl, rfl⟩

/-- **A request that comes to the pool moves its offset, and nothing else does.** -/
theorem warmMoved_of_step {a : Act} (hstep : step mem w a = some w') :
    WarmMoved w.tier w'.tier (warmRequest w.tier a) := by
  cases a with
  | alloc tier size answer =>
      rw [tier_of_step hstep]
      exact warmMoved_btTierAlloc w.tier tier size answer
  | free r =>
      obtain ⟨s, htier⟩ := tier_of_free hstep
      rw [htier]
      exact ⟨rfl, rfl, rfl⟩
  | write r v =>
      obtain ⟨s, htier⟩ := tier_of_write hstep
      rw [htier]
      exact ⟨rfl, rfl, rfl⟩

/-- How the pool answers. -/
theorem served_of_request {t : Tier} {tier : Kind} {size : UInt64} {answer : Option ℕ} {n : ℕ}
    (h : warmRequest t (.alloc tier size answer) = some n) :
    (btTierAlloc t tier size.toNat).2 = if warmStop t n ≤ t.warmSize then
      .warm ((t.warmPool + t.warmOffset) % 2 ^ 64) else .heap := by
  cases tier with
  | hot =>
      simp only [warmRequest, Option.ite_none_right_eq_some, Option.some.injEq] at h
      obtain ⟨⟨hindex, hlist⟩, rfl⟩ := h
      simp only [btTierAlloc, if_neg (Int.not_lt.2 hindex), btSlabAlloc, hlist]
      exact apply_ite Prod.snd _ _ _
  | warm =>
      obtain rfl := Option.some.inj h
      exact apply_ite Prod.snd _ _ _
  | cold => cases h
  | other => cases h

/-- Only a request that comes to the pool is served there. -/
theorem served_of_no_request {t : Tier} {tier : Kind} {size : UInt64} {answer : Option ℕ}
    (h : warmRequest t (.alloc tier size answer) = none) (p : ℕ) :
    (btTierAlloc t tier size.toNat).2 ≠ .warm p := by
  cases tier with
  | hot =>
      simp only [warmRequest, ite_eq_right_iff, reduceCtorEq, imp_false, not_and] at h
      simp only [btTierAlloc]
      split
      · exact Served.noConfusion
      · next hindex =>
          obtain ⟨q, hlist⟩ := Option.ne_none_iff_exists'.1 (h (Int.not_lt.1 hindex))
          simp only [btSlabAlloc, hlist]
          exact Served.noConfusion
  | warm => cases h
  | cold => exact Served.noConfusion
  | other => exact Served.noConfusion

/-! ### The pool is used up -/

/-- The call is a request that the pool serves. -/
def FromPool (w : World) : Act → Prop
  | .alloc tier size _ => ∃ p, (btTierAlloc w.tier tier size.toNat).2 = .warm p
  | _ => False

/-- The sum of the offset and the size of a request that comes to the pool is below `2 ^ 64`. -/
def BelowTop (w : World) (a : Act) : Prop :=
  ∀ n ∈ warmRequest w.tier a, w.tier.warmOffset + roundUp 6 n < 2 ^ 64

theorem warmStop_eq (t : Tier) (n : ℕ) :
    warmStop t n = (t.warmOffset + roundUp 6 n) % 2 ^ 64 :=
  stop_eq (by decide) t.warmOffset n

/-- **Once the offset is behind the end, nothing is served from the pool as long as it does not wrap
around**: no request, however small, in no sequence of calls. -/
theorem exhausted_for_good {acts : List Act} (h : w.tier.warmSize < w.tier.warmOffset)
    (htop : Along (step mem) BelowTop w acts) :
    Along (step mem) (fun v a => ¬ FromPool v a) w acts := by
  have hstop : ∀ {v a n}, v.tier.warmSize < v.tier.warmOffset → BelowTop v a →
      warmRequest v.tier a = some n → v.tier.warmSize < warmStop v.tier n := by
    intro v a n hv hbelow hrequest
    rw [warmStop_eq, Nat.mod_eq_of_lt (hbelow n hrequest)]
    omega
  refine along_of_invariant (I := fun v => v.tier.warmSize < v.tier.warmOffset) ?_ ?_ h htop
  · intro v a v' hv hbelow hstep
    have hmoved := warmMoved_of_step hstep
    rw [hmoved.size, hmoved.offset]
    cases hrequest : warmRequest v.tier a with
    | none => exact hv
    | some n => exact hstop hv hbelow hrequest
  · intro v a hv hbelow hserved
    cases a with
    | alloc tier size answer =>
        obtain ⟨p, hp⟩ := hserved
        cases hrequest : warmRequest v.tier (.alloc tier size answer) with
        | none => exact served_of_no_request hrequest p hp
        | some n =>
            rw [served_of_request hrequest,
              if_neg (Nat.not_le.2 (hstop hv hbelow hrequest))] at hp
            cases hp
    | free r => exact hserved
    | write r v => exact hserved

/-! ### What had room before -/

/-- A warm request for `m` bytes gets memory of the pool. -/
def ServedInPool (mem : Memory hotPoolMb warmPoolMb) (t : Tier) (m : ℕ) : Prop :=
  ∃ p, (btTierAlloc t .warm m).2 = .warm p ∧ bytes p m ⊆ mem.warm.bytes

/-- There is room for `m` bytes, rounded up to whole cache lines. -/
def Tier.HasRoom (t : Tier) (m : ℕ) : Prop := t.warmOffset + roundUp 6 m ≤ t.warmSize

/-- If the request comes to the pool and is passed on to the heap, a warm request for `m` bytes that
had room before is served from the pool afterwards. -/
def Intact (mem : Memory hotPoolMb warmPoolMb) (m : ℕ) (w : World) : Act → Prop
  | .alloc tier size answer =>
      warmRequest w.tier (.alloc tier size answer) ≠ none →
        (btTierAlloc w.tier tier size.toNat).2 = .heap → w.tier.HasRoom m →
          ServedInPool mem (btTierAlloc w.tier tier size.toNat).1 m
  | _ => True

/-- A request that comes to the pool while there is room for `m` bytes fits. -/
def Fitting (m : ℕ) (w : World) (a : Act) : Prop :=
  ∀ n ∈ warmRequest w.tier a, w.tier.HasRoom m →
    (w.tier.warmOffset + roundUp 6 n) % 2 ^ 64 ≤ w.tier.warmSize

instance (t : Tier) (m : ℕ) : Decidable (t.HasRoom m) :=
  inferInstanceAs (Decidable (t.warmOffset + roundUp 6 m ≤ t.warmSize))

instance (m : ℕ) (w : World) (a : Act) : Decidable (Fitting m w a) :=
  inferInstanceAs (Decidable (∀ n ∈ warmRequest w.tier a, _ → _))

/-- The pool is where the platform put it. -/
structure Based (mem : Memory hotPoolMb warmPoolMb) (w : World) : Prop where
  pool : w.tier.warmPool = mem.warm.base
  size : w.tier.warmSize = mem.warm.size

theorem start_based {words : ℕ → Option ℕ} {ok : Answers} {t : Tier}
    (hinit : btTierInit mem words ok = some t) : Based mem (start t) :=
  have hkept := (btTierInit_clean hinit).kept
  ⟨hkept.pool, hkept.size⟩

theorem step_based {a : Act} (h : Based mem w) (hstep : step mem w a = some w') :
    Based mem w' :=
  have hmoved := warmMoved_of_step hstep
  ⟨hmoved.pool.trans h.pool, hmoved.size.trans h.size⟩

/-- **Nothing that had room is served once the offset is behind the end**: if the sum wraps around
the request passes the test, but its pointer lies outside of the pool. -/
theorem not_servedInPool {t : Tier} {m : ℕ} (hpool : t.warmPool = mem.warm.base)
    (hsize : t.warmSize = mem.warm.size) (hbehind : t.warmSize < t.warmOffset)
    (hoffset : t.warmOffset < 2 ^ 64) (hm : roundUp 6 m ≤ t.warmSize) :
    ¬ ServedInPool mem t m := by
  rintro ⟨p, hserved, hsub⟩
  have htop := mem.warm.top
  simp only [btTierAlloc, warmAlloc] at hserved
  split at hserved
  · next hpassed =>
      obtain rfl := Served.warm.inj hserved
      rcases Nat.eq_zero_or_pos m with rfl | hpos
      · rw [warmStop_eq, roundUp_zero] at hpassed
        omega
      · obtain ⟨hlo, hhi⟩ := bounds_of_bytes_subset hsub hpos
        rw [hpool] at hlo hhi
        omega
  · cases hserved

/-- One call leaves the pool intact exactly if it fits. -/
theorem intact_iff (h : Based mem w) (m : ℕ) (a : Act) : Intact mem m w a ↔ Fitting m w a := by
  cases a with
  | alloc tier size answer =>
      cases hrequest : warmRequest w.tier (.alloc tier size answer) with
      | none =>
          refine iff_of_true (fun hne => absurd hrequest hne) fun n hn => ?_
          cases hrequest.symm.trans hn
      | some n =>
          constructor
          · intro hintact k hk hroom
            obtain rfl : n = k := Option.some.inj (hrequest.symm.trans hk)
            rw [← warmStop_eq]
            by_contra hfull
            have hheap : (btTierAlloc w.tier tier size.toNat).2 = .heap := by
              rw [served_of_request hrequest, if_neg hfull]
            -- the offset has moved behind the end
            have hmoved := warmMoved_btTierAlloc w.tier tier size answer
            have hoffset := hmoved.offset
            rw [hrequest] at hoffset
            refine not_servedInPool (hmoved.pool.trans h.pool) (hmoved.size.trans h.size) ?_ ?_ ?_
              (hintact (by simp [hrequest]) hheap hroom)
            · rw [hmoved.size, hoffset]
              exact Nat.not_le.1 hfull
            · rw [hoffset]
              exact warmStop_lt w.tier n
            · rw [hmoved.size]
              exact (Nat.le_add_left _ _).trans hroom
          · intro hfits _ hheap hroom
            have hfits := hfits n hrequest hroom
            rw [← warmStop_eq] at hfits
            rw [served_of_request hrequest, if_pos hfits] at hheap
            cases hheap
  | free r => exact iff_of_true trivial fun n hn => by cases hn
  | write r v => exact iff_of_true trivial fun n hn => by cases hn

/-- **The pool stays intact exactly if every request fits that comes to it while it has room**: for
every size of the pools, every memory that the platform gives, every sequence of requests, frees and
writes, and every size of the request that follows. -/
theorem fallback_intact_iff (mem : Memory hotPoolMb warmPoolMb) (words : ℕ → Option ℕ)
    {ok : Answers} {t : Tier} (hinit : btTierInit mem words ok = some t) (acts : List Act) (m : ℕ) :
    Along (step mem) (Intact mem m) (start t) acts ↔
      Along (step mem) (Fitting m) (start t) acts := by
  refine along_iff_of_invariant (I := Based mem) ?_ ?_ (start_based hinit)
  · intro v a v' h _ hstep
    exact step_based h hstep
  · intro v a h
    exact intact_iff h m a

/-- The hypothesis of `MemoryTier.fallback_intact_iff` holds of a pool of a megabyte.  It stays
intact for requests of 64 bytes if it is used up to the last byte first. -/
theorem fallback_intact_used_up :
    ∃ t, btTierInit oneMegabyte (fun _ => none) allThere = some t ∧
      Along (step oneMegabyte) (Intact oneMegabyte 64) (start t)
        [.alloc .warm 1048576 none, .alloc .warm 64 none] :=
  ⟨_, rfl, (fallback_intact_iff oneMegabyte (fun _ => none)
    (by rfl : btTierInit oneMegabyte (fun _ => none) allThere = some _) _ 64).2
    (by decide +kernel)⟩

/-- A request for one byte more than the pool has is passed on to the heap.  After it a request for
64 bytes is, too, although the pool is empty. -/
theorem room_lost :
    ∃ t w, btTierInit oneMegabyte (fun _ => none) allThere = some t ∧
      step oneMegabyte (start t) (.alloc .warm 1048577 none) = some w ∧
      (btTierAlloc t .warm 1048577).2 = .heap ∧ t.HasRoom 64 ∧
      (btTierAlloc w.tier .warm 64).2 = .heap ∧
      ¬ Intact oneMegabyte 64 (start t) (.alloc .warm 1048577 none) := by
  refine ⟨_, _, rfl, rfl, rfl, by decide +kernel, rfl, fun h => ?_⟩
  obtain ⟨p, hserved, -⟩ := h (Option.some_ne_none _) rfl (by decide +kernel)
  cases hserved

end MemoryTier
