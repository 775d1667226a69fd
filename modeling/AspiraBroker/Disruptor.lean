/-
**The claims of the disruptor.**

Producers of the disruptor share a cursor.  A producer claims the sequence number that the cursor
holds by a compare-and-swap, writes the slot of that number, and commits by storing the number into
the slot's entry of `committed`.  Before the compare-and-swap it tests whether the ring is full.
The test looks at the entry of the *next* sequence number, not at the entry of the one that is
claimed, and it takes an entry that was never committed for a free slot.  So when the producer of
sequence `0` is slow, the producers that follow run around the ring and one of them claims slot `0`
a second time.

The slots have one writer exactly as long as every claim from the second lap on finds the sequence
number a lap before it committed.  Under that condition the cursor stops within two laps, because
nothing ever takes an entry back; so it does not overflow either.

Main definitions:

* `Disruptor.Sys`, `Disruptor.Act`, `Disruptor.step`, `Disruptor.start` — producers that claim,
  write and commit, one atomic step at a time;
* `Disruptor.OneWriter` — no two producers hold sequence numbers of the same slot;
* `Disruptor.ClaimsCommitted` — a claim finds the previous lap of its slot committed;
* `Disruptor.Claimed` — the invariant.

Main results:

* `Disruptor.step_claimed` — the invariant is kept;
* `Disruptor.one_writer_iff` — **the slots have one writer exactly when every claim meets the
  condition**;
* `Disruptor.slow_producer_shares_slot` — a run in which two producers hold the same slot.
-/

import AspiraBroker.RingIndex
import AspiraBroker.TransitionRuns
import Mathlib.Algebra.Group.Nat.Defs

set_option relaxedAutoImplicit false
set_option autoImplicit false

namespace Disruptor

open Transition

universe u v

/-! ### Capacities and slots -/

/-- `(size_t)(-1)`: an entry that was never committed, and the answer of a full ring. -/
def sizeMax : UInt64 := UInt64.ofNat (UInt64.size - 1)

/-- The capacity: any power of two that a `size_t` can hold. -/
def capacity (k : Fin 64) : UInt64 := UInt64.ofNat (2 ^ k.val)

/-- `capacity - 1`. -/
def mask (k : Fin 64) : UInt64 := capacity k - 1

/-- `seq & mask`. -/
def slot (k : Fin 64) (seq : UInt64) : UInt64 := seq &&& mask k

/-- The `wrap_point` of a claim that has loaded `seq`. -/
def wrapPoint (k : Fin 64) (seq : UInt64) : UInt64 := seq + 1 - capacity k

theorem toNat_sizeMax : sizeMax.toNat = 2 ^ 64 - 1 := by decide

theorem two_pow_lt (k : Fin 64) : 2 ^ k.val < 2 ^ 64 := Nat.pow_lt_pow_right (by decide) k.isLt

theorem two_mul_two_pow_le (k : Fin 64) : 2 * 2 ^ k.val ≤ 2 ^ 64 := by
  have hle : 2 ^ (k.val + 1) ≤ 2 ^ 64 := Nat.pow_le_pow_right (by decide) k.isLt
  rw [Nat.pow_succ] at hle
  omega

theorem toNat_capacity (k : Fin 64) : (capacity k).toNat = 2 ^ k.val := by
  rw [capacity, UInt64.toNat_ofNat', Nat.mod_eq_of_lt (two_pow_lt k)]

theorem capacity_pos (k : Fin 64) : 0 < 2 ^ k.val := Nat.two_pow_pos _

theorem toNat_slot (k : Fin 64) (seq : UInt64) : (slot k seq).toNat = seq.toNat % 2 ^ k.val := by
  have hone : (1 : UInt64) ≤ capacity k := by
    rw [UInt64.le_iff_toNat_le, toNat_capacity]
    exact capacity_pos k
  rw [slot, mask, UInt64.toNat_and, UInt64.toNat_sub_of_le _ _ hone, toNat_capacity]
  exact Ring.masked_eq _ _

theorem slot_eq_iff (k : Fin 64) (a b : UInt64) :
    slot k a = slot k b ↔ a.toNat % 2 ^ k.val = b.toNat % 2 ^ k.val := by
  rw [← UInt64.toNat_inj, toNat_slot, toNat_slot]

/-- Numbers a lap apart have the same slot. -/
theorem slot_lap {k : Fin 64} {a b : UInt64} (h : b.toNat = a.toNat + 2 ^ k.val) :
    slot k a = slot k b := by
  rw [slot_eq_iff, h, Nat.add_mod_right]

/-- The number a lap before. -/
theorem toNat_sub_capacity {k : Fin 64} {a : UInt64} (h : 2 ^ k.val ≤ a.toNat) :
    (a - capacity k).toNat = a.toNat - 2 ^ k.val := by
  rw [UInt64.toNat_sub_of_le, toNat_capacity]
  rwa [UInt64.le_iff_toNat_le, toNat_capacity]

/-! ### The machine -/

/-- Where a producer stands in claim, write and commit, with the item and the number it loaded. -/
inductive Pc (α : Type v)
  | idle
  | enter (item : α)
  | load (item : α)
  | first (item : α) (seq : UInt64)
  | second (item : α) (seq : UInt64)
  | cas (item : α) (seq : UInt64)
  | write (item : α) (seq : UInt64)
  | commit (seq : UInt64)
  deriving DecidableEq

/-- The sequence number that is claimed and not committed. -/
def Pc.holding {α : Type v} : Pc α → Option UInt64
  | .write _ seq | .commit seq => some seq
  | .idle | .enter _ | .load _ | .first _ _ | .second _ _ | .cas _ _ => none

/-- The cursor that the claim has loaded. -/
def Pc.loaded {α : Type v} : Pc α → Option UInt64
  | .first _ seq | .second _ seq | .cas _ seq => some seq
  | .idle | .enter _ | .load _ | .write _ _ | .commit _ => none

/-- The ring and the producers. -/
structure Sys (ι : Type u) (α : Type v) where
  cursor : UInt64
  committed : UInt64 → UInt64
  buffer : UInt64 → Option α
  pc : ι → Pc α

/-- A producer begins to publish an item, or takes its next step.  A compare-and-swap may fail
although the cursor is the expected one. -/
inductive Act (ι : Type u) (α : Type v)
  | publish (p : ι) (item : α)
  | move (p : ι) (spurious : Bool)

section Machine

variable {ι : Type u} {α : Type v}

/-- No number is claimed, and no entry was ever committed.  `BT_DISRUPTOR_INIT` stores `SIZE_MAX`
into all entries of a queue, at the places where `BT_DISRUPTOR_DEF` has them.  The helpers find
entry `i` where entry `i + 1` of the queue is, so that their last one is not among them; what it
holds on such a queue depends on the buffer, and `Disruptor.Views` says what the helpers see
there. -/
def start (ι : Type u) (α : Type v) : Sys ι α :=
  ⟨0, fun _ => sizeMax, fun _ => none, fun _ => .idle⟩

/-- A producer that holds nothing is not the one that holds something. -/
theorem ne_of_holding {s : Sys ι α} {p q : ι} {pc : Pc α} (hpc : s.pc p = pc)
    (hnone : pc.holding = none) {c : UInt64} (hq : (s.pc q).holding = some c) : q ≠ p := by
  rintro rfl
  rw [hpc, hnone] at hq
  cases hq

variable [DecidableEq ι]

/-- The producer moves on and the ring stays as it is. -/
def Sys.goto (s : Sys ι α) (p : ι) (pc : Pc α) : Sys ι α :=
  { s with pc := Function.update s.pc p pc }

theorem goto_of_ne (s : Sys ι α) {p q : ι} (hq : q ≠ p) (pc : Pc α) :
    (s.goto p pc).pc q = s.pc q := Function.update_of_ne hq _ _

theorem goto_self (s : Sys ι α) (p : ι) (pc : Pc α) : (s.goto p pc).pc p = pc :=
  Function.update_self _ _ _

/-- After the move a fact about where a producer stands is one about the new place, or about another
producer. -/
theorem of_goto {P : Pc α → Prop} {s : Sys ι α} {p q : ι} {pc : Pc α} (h : P ((s.goto p pc).pc q)) :
    (q = p ∧ P pc) ∨ (q ≠ p ∧ P (s.pc q)) := of_update h

/-- A producer that goes where nothing is loaded does not change who has loaded what. -/
theorem loaded_of_goto {s : Sys ι α} {p q : ι} {pc : Pc α} (hnone : pc.loaded = none) {seq : UInt64}
    (h : ((s.goto p pc).pc q).loaded = some seq) : (s.pc q).loaded = some seq := by
  rcases of_goto (P := fun x => x.loaded = some seq) h with ⟨-, hnew⟩ | ⟨-, hold⟩
  · rw [hnone] at hnew
    cases hnew
  · exact hold

theorem cas_of_goto {s : Sys ι α} {p q : ι} {pc : Pc α} (hnone : pc.loaded = none) {item : α}
    {seq : UInt64} (h : (s.goto p pc).pc q = .cas item seq) : s.pc q = .cas item seq := by
  rcases of_goto (P := fun x => x = .cas item seq) h with ⟨-, hnew⟩ | ⟨-, hold⟩
  · rw [hnew] at hnone
    cases hnone
  · exact hold

/-- One step. -/
def step (k : Fin 64) (s : Sys ι α) : Act ι α → Option (Sys ι α)
  | .publish p item =>
      match s.pc p with
      | .idle => some (s.goto p (.enter item))
      | _ => none
  | .move p spurious =>
      match s.pc p with
      | .idle => none
      -- the load in front of the loop is repeated at the top of it
      | .enter item => some (s.goto p (.load item))
      | .load item => some (s.goto p (.first item s.cursor))
      | .first item seq =>
          if s.committed (slot k (wrapPoint k seq)) ≠ sizeMax then
            some (s.goto p (.second item seq))
          else some (s.goto p (.cas item seq))
      | .second item seq =>
          if s.committed (slot k (wrapPoint k seq)) ≤ wrapPoint k seq then some (s.goto p .idle)
          else some (s.goto p (.cas item seq))
      | .cas item seq =>
          if s.cursor = seq ∧ spurious = false then
            -- a claim of the number `SIZE_MAX` looks like a full ring to the caller
            some { s.goto p (if seq = sizeMax then .idle else .write item seq) with
              cursor := seq + 1 }
          else some (s.goto p (.load item))
      | .write item seq =>
          some { s.goto p (.commit seq) with
            buffer := Function.update s.buffer (slot k seq) (some item) }
      | .commit seq =>
          some { s.goto p .idle with committed := Function.update s.committed (slot k seq) seq }

/-- The sequence number that the step claims. -/
def claims (s : Sys ι α) : Act ι α → Option UInt64
  | .publish _ _ => none
  | .move p spurious =>
      match s.pc p with
      | .cas _ seq => if s.cursor = seq ∧ spurious = false then some seq else none
      | _ => none

omit [DecidableEq ι] in
/-- No two producers hold claimed and uncommitted sequence numbers of the same slot. -/
def OneWriter (k : Fin 64) (s : Sys ι α) : Prop :=
  ∀ p q c d, (s.pc p).holding = some c → (s.pc q).holding = some d → slot k c = slot k d → p = q

/-- A claim from the second lap on finds the number a lap before it committed. -/
def ClaimsCommitted (k : Fin 64) (s : Sys ι α) (a : Act ι α) : Prop :=
  ∀ seq, claims s a = some seq →
    seq < capacity k ∨ s.committed (slot k seq) = seq - capacity k

/-! ### What a step does -/

omit [DecidableEq ι] in
/-- The test of a claim that has loaded `seq` lets it pass. -/
def Passes (k : Fin 64) (s : Sys ι α) (seq : UInt64) : Prop :=
  s.committed (slot k (wrapPoint k seq)) = sizeMax ∨
    ¬ s.committed (slot k (wrapPoint k seq)) ≤ wrapPoint k seq

/-- A step moves one producer about without a claim or a commit, claims, or commits. -/
inductive Steps (k : Fin 64) (s : Sys ι α) : Act ι α → Sys ι α → Prop
  | quiet {a : Act ι α} (p : ι) (pc : Pc α) (buffer : UInt64 → Option α)
      (hclaim : claims s a = none) (hhold : pc.holding = (s.pc p).holding)
      (hload : ∀ seq, pc.loaded = some seq → (s.pc p).loaded = some seq ∨ seq = s.cursor)
      (hcas : ∀ item seq, pc = .cas item seq →
        (s.pc p).loaded = some seq ∧ Passes k s seq) :
      Steps k s a { s.goto p pc with buffer := buffer }
  | claim (p : ι) (item : α) (seq : UInt64) (hpc : s.pc p = .cas item seq) (hcur : s.cursor = seq) :
      Steps k s (.move p false)
        { s.goto p (if seq = sizeMax then .idle else .write item seq) with cursor := seq + 1 }
  | commit {spurious : Bool} (p : ι) (seq : UInt64) (hpc : s.pc p = .commit seq) :
      Steps k s (.move p spurious)
        { s.goto p .idle with committed := Function.update s.committed (slot k seq) seq }

theorem steps_of_step {k : Fin 64} {s s' : Sys ι α} {a : Act ι α} (h : step k s a = some s') :
    Steps k s a s' := by
  cases a with
  | publish p item =>
      simp only [step] at h
      split at h
      next hpc =>
        cases h
        exact .quiet p _ s.buffer rfl (by rw [hpc]; rfl) (by simp [Pc.loaded]) (by simp)
      · cases h
  | move p spurious =>
      have hquiet : ∀ pc, s.pc p = pc → (∀ item seq, pc ≠ .cas item seq) →
          claims s (.move p spurious) = none := by
        intro pc hpc hne
        rw [claims, hpc]
        cases pc <;> first | rfl | exact absurd rfl (hne _ _)
      simp only [step] at h
      split at h
      · cases h
      next item hpc =>
        cases h
        exact .quiet p _ s.buffer (hquiet _ hpc (by simp)) (by rw [hpc]; rfl)
          (by simp [Pc.loaded]) (by simp)
      next item hpc =>
        cases h
        refine .quiet p _ s.buffer (hquiet _ hpc (by simp)) (by rw [hpc]; rfl) ?_ (by simp)
        intro seq hseq
        exact Or.inr (Option.some.inj hseq).symm
      next item seq hpc =>
        split at h <;> cases h
        · refine .quiet p _ s.buffer (hquiet _ hpc (by simp)) (by rw [hpc]; rfl) ?_ (by simp)
          intro d hd
          exact Or.inl (by rw [hpc]; exact hd)
        next hmax =>
          refine .quiet p _ s.buffer (hquiet _ hpc (by simp)) (by rw [hpc]; rfl) ?_ ?_
          · intro d hd
            exact Or.inl (by rw [hpc]; exact hd)
          · intro i d hd
            cases hd
            exact ⟨by rw [hpc]; rfl, Or.inl (not_not.1 hmax)⟩
      next item seq hpc =>
        split at h <;> cases h
        · exact .quiet p _ s.buffer (hquiet _ hpc (by simp)) (by rw [hpc]; rfl)
            (by simp [Pc.loaded]) (by simp)
        next hle =>
          refine .quiet p _ s.buffer (hquiet _ hpc (by simp)) (by rw [hpc]; rfl) ?_ ?_
          · intro d hd
            exact Or.inl (by rw [hpc]; exact hd)
          · intro i d hd
            cases hd
            exact ⟨by rw [hpc]; rfl, Or.inr hle⟩
      next item seq hpc =>
        split at h <;> cases h
        next hwin =>
          obtain ⟨hcur, rfl⟩ := hwin
          exact .claim p item seq hpc hcur
        next hlose =>
          refine .quiet p _ s.buffer ?_ (by rw [hpc]; rfl) (by simp [Pc.loaded]) (by simp)
          simp only [claims, hpc, hlose, if_false]
      next item seq hpc =>
        cases h
        exact .quiet p _ _ (hquiet _ hpc (by simp)) (by rw [hpc]; rfl) (by simp [Pc.loaded])
          (by simp)
      next seq hpc =>
        cases h
        exact .commit p seq hpc

/-! ### The invariant -/

omit [DecidableEq ι] in
/-- Where the cursor stops: the entry that the test of the number `top` looks at is that of
sequence `0` or of a multiple of the capacity, and it has been committed by then. -/
def top (k : Fin 64) : ℕ := max 2 (2 * 2 ^ k.val - 1)

theorem capacity_lt_top (k : Fin 64) : 2 ^ k.val < top k := by
  have := capacity_pos k
  simp only [top]
  omega

theorem top_lt (k : Fin 64) : top k < 2 ^ 64 := by
  have := two_mul_two_pow_le k
  simp only [top]
  omega

theorem two_pow_dvd_top_succ (k : Fin 64) : 2 ^ k.val ∣ top k + 1 := by
  rcases Nat.lt_or_ge (2 ^ k.val) 2 with hlt | hge
  · have hone : 2 ^ k.val = 1 := by
      have := capacity_pos k
      omega
    rw [hone]
    exact Nat.one_dvd _
  · refine ⟨2, ?_⟩
    simp only [top]
    omega

omit [DecidableEq ι] in
/-- Behind the cursor every number of the last lap is held by its producer or committed; what is
held has not been committed; and an entry of the lap before has been. -/
structure Claimed (k : Fin 64) (s : Sys ι α) : Prop where
  bound : s.cursor.toNat ≤ top k
  loaded_le : ∀ p seq, (s.pc p).loaded = some seq → seq.toNat ≤ s.cursor.toNat
  cas_lt : ∀ p item seq, s.pc p = .cas item seq → seq.toNat < top k
  held : ∀ p c, (s.pc p).holding = some c → c.toNat < s.cursor.toNat ∧
    s.cursor.toNat ≤ c.toNat + 2 ^ k.val ∧ s.committed (slot k c) ≠ c
  oneWriter : OneWriter k s
  filled : ∀ c : UInt64, c.toNat < s.cursor.toNat → s.cursor.toNat ≤ c.toNat + 2 ^ k.val →
    (∃ p, (s.pc p).holding = some c) ∨ s.committed (slot k c) = c
  early : ∀ c : UInt64, s.cursor.toNat ≤ c.toNat → c.toNat < 2 ^ k.val →
    s.committed (slot k c) = sizeMax
  entry : ∀ i, s.committed i = sizeMax ∨
    (s.committed i).toNat < s.cursor.toNat ∧ slot k (s.committed i) = i
  passed : ∀ c : UInt64, c.toNat + 2 ^ k.val < s.cursor.toNat → s.committed (slot k c) ≠ sizeMax

omit [DecidableEq ι] in
theorem claimed_start (k : Fin 64) : Claimed k (start ι α) where
  bound := Nat.zero_le _
  loaded_le := by simp [start, Pc.loaded]
  cas_lt := by simp [start]
  held := by simp [start, Pc.holding]
  oneWriter := by simp [OneWriter, start, Pc.holding]
  filled := by simp [start]
  early := fun _ _ _ => rfl
  entry := fun _ => Or.inl rfl
  passed := by simp [start]

namespace Claimed

variable {k : Fin 64} {s : Sys ι α}

omit [DecidableEq ι] in
/-- A number in front of the cursor is not `SIZE_MAX`. -/
theorem ne_sizeMax (h : Claimed k s) {c : UInt64} (hc : c.toNat < s.cursor.toNat) :
    c ≠ sizeMax := by
  rintro rfl
  have htop := top_lt k
  have hbound := h.bound
  rw [toNat_sizeMax] at hc
  omega

omit [DecidableEq ι] in
/-- The test stops every claim that has loaded `top`. -/
theorem not_passes_top (h : Claimed k s) {seq : UInt64} (hseq : seq.toNat = top k)
    (hcur : s.cursor.toNat = top k) : ¬ Passes k s seq := by
  have htop := top_lt k
  have hcap := capacity_lt_top k
  have hpos := capacity_pos k
  obtain ⟨m, hm⟩ := two_pow_dvd_top_succ k
  have hwrap : (wrapPoint k seq).toNat = top k + 1 - 2 ^ k.val := by
    rw [wrapPoint, UInt64.toNat_sub, UInt64.toNat_add, toNat_capacity, hseq, UInt64.toNat_one]
    omega
  -- the entry in question is that of slot `0`
  have hdvd : 2 ^ k.val ∣ top k + 1 - 2 ^ k.val :=
    Nat.dvd_sub (two_pow_dvd_top_succ k) (Nat.dvd_refl _)
  have hslot : slot k (wrapPoint k seq) = slot k 0 := by
    rw [slot_eq_iff, hwrap, Nat.mod_eq_zero_of_dvd hdvd]
    simp
  have hne : s.committed (slot k 0) ≠ sizeMax := h.passed 0 (by simpa [hcur] using hcap)
  rintro (hmax | hgt)
  · exact hne (by rw [← hslot]; exact hmax)
  · refine hgt ?_
    rw [hslot, UInt64.le_iff_toNat_le, hwrap]
    rcases h.entry (slot k 0) with hmax | ⟨hlt, hmod⟩
    · exact absurd hmax hne
    · rw [hcur] at hlt
      rw [slot_eq_iff] at hmod
      have hzero : (s.committed (slot k 0)).toNat % 2 ^ k.val = 0 := by simpa using hmod
      obtain ⟨j, hj⟩ := Nat.dvd_of_mod_eq_zero hzero
      obtain ⟨l, hl⟩ := hdvd
      -- two multiples of the capacity: the entry is below `top + 1`, so a capacity below it
      by_contra hnot
      have hjm : j < m := by
        refine Nat.lt_of_mul_lt_mul_left (a := 2 ^ k.val) ?_
        omega
      have hmul : 2 ^ k.val * (j + 1) ≤ 2 ^ k.val * m := Nat.mul_le_mul_left _ hjm
      rw [Nat.mul_add, Nat.mul_one] at hmul
      omega

/-- A move without claim or commit. -/
theorem quiet (h : Claimed k s) {p : ι} {pc : Pc α} {buffer : UInt64 → Option α}
    (hhold : pc.holding = (s.pc p).holding)
    (hload : ∀ seq, pc.loaded = some seq → (s.pc p).loaded = some seq ∨ seq = s.cursor)
    (hcas : ∀ item seq, pc = .cas item seq → (s.pc p).loaded = some seq ∧ Passes k s seq) :
    Claimed k { s.goto p pc with buffer := buffer } := by
  have hall : ∀ q, ((s.goto p pc).pc q).holding = (s.pc q).holding :=
    apply_update_eq Pc.holding hhold
  refine ⟨h.bound, ?_, ?_, ?_, ?_, ?_, h.early, h.entry, h.passed⟩
  · intro q seq hq
    rcases of_goto (P := fun x => x.loaded = some seq) hq with ⟨rfl, hnew⟩ | ⟨-, hq⟩
    · rcases hload seq hnew with hold | rfl
      · exact h.loaded_le q seq hold
      · exact Nat.le_refl _
    · exact h.loaded_le q seq hq
  · intro q item seq hq
    rcases of_goto (P := fun x => x = .cas item seq) hq with ⟨rfl, hnew⟩ | ⟨-, hq⟩
    · obtain ⟨hold, hpass⟩ := hcas item seq hnew
      have hle := h.loaded_le q seq hold
      have hbound := h.bound
      by_contra hge
      exact h.not_passes_top (by omega) (by omega) hpass
    · exact h.cas_lt q item seq hq
  · intro q c hq
    exact h.held q c ((hall q).symm.trans hq)
  · intro q r c d hq hr
    exact h.oneWriter q r c d ((hall q).symm.trans hq) ((hall r).symm.trans hr)
  · intro c hlt hle
    rcases h.filled c hlt hle with ⟨q, hq⟩ | hdone
    · exact Or.inl ⟨q, (hall q).trans hq⟩
    · exact Or.inr hdone

omit [DecidableEq ι] in
/-- Two numbers of the last lap that have the same slot are the same. -/
theorem eq_of_slot_eq {c d : UInt64} (hslot : slot k c = slot k d)
    (hc : c.toNat < s.cursor.toNat) (hc' : s.cursor.toNat ≤ c.toNat + 2 ^ k.val)
    (hd : d.toNat < s.cursor.toNat) (hd' : s.cursor.toNat ≤ d.toNat + 2 ^ k.val) : c = d := by
  rw [slot_eq_iff] at hslot
  rw [← UInt64.toNat_inj]
  rcases Nat.le_total c.toNat d.toNat with hle | hle
  · exact Ring.index_inj hle (by omega) hslot
  · exact (Ring.index_inj hle (by omega) hslot.symm).symm

omit [DecidableEq ι] in
/-- A claim is about to take a number below `top`. -/
theorem cursor_ne_sizeMax (h : Claimed k s) {p : ι} {item : α}
    (hpc : s.pc p = .cas item s.cursor) : s.cursor ≠ sizeMax := by
  intro hmax
  have hlt := h.cas_lt p item _ hpc
  have htop := top_lt k
  rw [hmax, toNat_sizeMax] at hlt
  omega

omit [DecidableEq ι] in
/-- The entry that the next claim finds under the condition: none in the first lap, and the number a
lap before in the others. -/
theorem entry_of_next (h : Claimed k s)
    (hc : s.cursor < capacity k ∨ s.committed (slot k s.cursor) = s.cursor - capacity k) :
    s.cursor.toNat < 2 ^ k.val ∧ s.committed (slot k s.cursor) = sizeMax ∨
      (s.committed (slot k s.cursor)).toNat + 2 ^ k.val = s.cursor.toNat := by
  rcases Nat.lt_or_ge s.cursor.toNat (2 ^ k.val) with hfirst | hlap
  · exact Or.inl ⟨hfirst, h.early s.cursor (Nat.le_refl _) hfirst⟩
  · rcases hc with hfirst | hdone
    · rw [UInt64.lt_iff_toNat_lt, toNat_capacity] at hfirst
      omega
    · rw [hdone, toNat_sub_capacity hlap]
      omega

omit [DecidableEq ι] in
/-- When the next number is claimed under the condition, nobody holds its slot. -/
theorem slot_free (h : Claimed k s)
    (hc : s.cursor < capacity k ∨ s.committed (slot k s.cursor) = s.cursor - capacity k)
    {q : ι} {c : UInt64} (hq : (s.pc q).holding = some c) : slot k c ≠ slot k s.cursor := by
  intro hslot
  obtain ⟨hlt, hle, hne⟩ := h.held q c hq
  have hmod := (slot_eq_iff k c s.cursor).1 hslot
  -- the holder is a whole lap behind
  have hlap : s.cursor.toNat = c.toNat + 2 ^ k.val := by
    by_contra hneq
    have := Ring.index_inj (n := 2 ^ k.val) hlt.le (by omega) hmod
    omega
  rcases h.entry_of_next hc with ⟨hfirst, -⟩ | hdone
  · omega
  · refine hne ?_
    rw [hslot, ← UInt64.toNat_inj]
    omega

omit [DecidableEq ι] in
/-- So what is held stays in the last lap. -/
theorem held_next (h : Claimed k s)
    (hc : s.cursor < capacity k ∨ s.committed (slot k s.cursor) = s.cursor - capacity k)
    {q : ι} {c : UInt64} (hq : (s.pc q).holding = some c) :
    s.cursor.toNat + 1 ≤ c.toNat + 2 ^ k.val := by
  obtain ⟨-, hle, -⟩ := h.held q c hq
  by_contra hnot
  exact h.slot_free hc hq (slot_lap (by omega))

omit [DecidableEq ι] in
/-- The next number is not in its entry yet. -/
theorem entry_ne_next (h : Claimed k s) {p : ι} {item : α} (hpc : s.pc p = .cas item s.cursor)
    (hc : s.cursor < capacity k ∨ s.committed (slot k s.cursor) = s.cursor - capacity k) :
    s.committed (slot k s.cursor) ≠ s.cursor := by
  intro heq
  have hpos := capacity_pos k
  rcases h.entry_of_next hc with ⟨-, hmax⟩ | hlap
  · exact h.cursor_ne_sizeMax hpc (heq.symm.trans hmax)
  · rw [heq] at hlap
    omega

omit [DecidableEq ι] in
/-- From the second lap on its entry is in use. -/
theorem entry_next_ne_sizeMax (h : Claimed k s)
    (hc : s.cursor < capacity k ∨ s.committed (slot k s.cursor) = s.cursor - capacity k)
    (hlap : 2 ^ k.val ≤ s.cursor.toNat) : s.committed (slot k s.cursor) ≠ sizeMax := by
  intro hmax
  have hbound := h.bound
  have htop := top_lt k
  have hpos := capacity_pos k
  rcases h.entry_of_next hc with ⟨hfirst, -⟩ | hdone
  · omega
  · rw [hmax, toNat_sizeMax] at hdone
    omega

/-- A claim under the condition. -/
theorem claim (h : Claimed k s) {p : ι} {item : α} (hpc : s.pc p = .cas item s.cursor)
    (hc : s.cursor < capacity k ∨ s.committed (slot k s.cursor) = s.cursor - capacity k) :
    Claimed k { s.goto p (.write item s.cursor) with cursor := s.cursor + 1 } := by
  have hlt := h.cas_lt p item s.cursor hpc
  have htop := top_lt k
  have hpos := capacity_pos k
  have hnext : (s.cursor + 1).toNat = s.cursor.toNat + 1 := by
    rw [UInt64.toNat_add, UInt64.toNat_one, Nat.mod_eq_of_lt (by omega)]
  constructor
  case bound =>
    change (s.cursor + 1).toNat ≤ top k
    omega
  case loaded_le =>
    intro q seq hq
    change seq.toNat ≤ (s.cursor + 1).toNat
    have := h.loaded_le q seq (loaded_of_goto rfl hq)
    omega
  case cas_lt =>
    intro q i seq hq
    exact h.cas_lt q i seq (cas_of_goto rfl hq)
  case held =>
    intro q c hq
    change c.toNat < (s.cursor + 1).toNat ∧ (s.cursor + 1).toNat ≤ c.toNat + 2 ^ k.val ∧
      s.committed (slot k c) ≠ c
    rcases of_goto (P := fun x => x.holding = some c) hq with ⟨-, hnew⟩ | ⟨-, hq⟩
    · obtain rfl := Option.some.inj hnew
      exact ⟨by omega, by omega, h.entry_ne_next hpc hc⟩
    · obtain ⟨hcl, -, hne⟩ := h.held q c hq
      have hle := h.held_next hc hq
      exact ⟨by omega, by omega, hne⟩
  case oneWriter =>
    intro q r c d hq hr hslot
    rcases of_goto (P := fun x => x.holding = some c) hq with ⟨hqp, hq⟩ | ⟨-, hq⟩ <;>
      rcases of_goto (P := fun x => x.holding = some d) hr with ⟨hrp, hr⟩ | ⟨-, hr⟩
    · rw [hqp, hrp]
    · obtain rfl := Option.some.inj hq
      exact absurd hslot.symm (h.slot_free hc hr)
    · obtain rfl := Option.some.inj hr
      exact absurd hslot (h.slot_free hc hq)
    · exact h.oneWriter q r c d hq hr hslot
  case filled =>
    intro c hcl hcr
    change c.toNat < (s.cursor + 1).toNat at hcl
    change (s.cursor + 1).toNat ≤ c.toNat + 2 ^ k.val at hcr
    change (∃ q, ((s.goto p _).pc q).holding = some c) ∨ s.committed (slot k c) = c
    rcases Nat.lt_or_ge c.toNat s.cursor.toNat with hold | hnew
    · rcases h.filled c hold (by omega) with ⟨q, hq⟩ | hdone
      · have hqp := ne_of_holding hpc rfl hq
        exact Or.inl ⟨q, by rw [goto_of_ne s hqp, hq]⟩
      · exact Or.inr hdone
    · obtain rfl : c = s.cursor := UInt64.toNat_inj.1 (by omega)
      exact Or.inl ⟨p, by rw [goto_self]; rfl⟩
  case early =>
    intro c hcl hcr
    change (s.cursor + 1).toNat ≤ c.toNat at hcl
    exact h.early c (by omega) hcr
  case entry =>
    intro i
    change s.committed i = sizeMax ∨ (s.committed i).toNat < (s.cursor + 1).toNat ∧ _
    exact (h.entry i).imp_right fun ⟨hold, hmod⟩ => ⟨by omega, hmod⟩
  case passed =>
    intro c hcl
    change c.toNat + 2 ^ k.val < (s.cursor + 1).toNat at hcl
    change s.committed (slot k c) ≠ sizeMax
    rcases Nat.lt_or_ge (c.toNat + 2 ^ k.val) s.cursor.toNat with hold | hnew
    · exact h.passed c hold
    · rw [slot_lap (show s.cursor.toNat = c.toNat + 2 ^ k.val by omega)]
      exact h.entry_next_ne_sizeMax hc (by omega)

omit [DecidableEq ι] in
/-- A number of the first lap that is not claimed yet has none of the slots in use. -/
theorem slot_ne_of_early {c d : UInt64} (hc : s.cursor.toNat ≤ c.toNat)
    (hfirst : c.toNat < 2 ^ k.val) (hd : d.toNat < s.cursor.toNat) : slot k c ≠ slot k d := by
  intro hslot
  rw [slot_eq_iff, Nat.mod_eq_of_lt hfirst, Nat.mod_eq_of_lt (by omega)] at hslot
  omega

/-- A commit. -/
theorem commit (h : Claimed k s) {p : ι} {seq : UInt64} (hpc : s.pc p = .commit seq) :
    Claimed k { s.goto p .idle with
      committed := Function.update s.committed (slot k seq) seq } := by
  have hseq : (s.pc p).holding = some seq := by rw [hpc]; rfl
  obtain ⟨hlt, hle, -⟩ := h.held p seq hseq
  have hother : ∀ q c, ((s.goto p .idle).pc q).holding = some c →
      (s.pc q).holding = some c ∧ slot k c ≠ slot k seq := by
    intro q c hq
    rcases of_goto (P := fun x => x.holding = some c) hq with ⟨-, hq⟩ | ⟨hqp, hq⟩
    · cases hq
    · exact ⟨hq, fun hslot => hqp (h.oneWriter q p c seq hq hseq hslot)⟩
  constructor
  case bound => exact h.bound
  case loaded_le =>
    intro q c hq
    exact h.loaded_le q c (loaded_of_goto rfl hq)
  case cas_lt =>
    intro q item c hq
    exact h.cas_lt q item c (cas_of_goto rfl hq)
  case held =>
    intro q c hq
    obtain ⟨hold, hne⟩ := hother q c hq
    obtain ⟨hcl, hcr, hun⟩ := h.held q c hold
    refine ⟨hcl, hcr, ?_⟩
    change Function.update s.committed (slot k seq) seq (slot k c) ≠ c
    rwa [Function.update_of_ne hne]
  case oneWriter =>
    intro q r c d hq hr
    exact h.oneWriter q r c d (hother q c hq).1 (hother r d hr).1
  case filled =>
    intro c hcl hcr
    change _ ∨ Function.update s.committed (slot k seq) seq (slot k c) = c
    by_cases hslot : slot k c = slot k seq
    · right
      rw [hslot, Function.update_self]
      exact (eq_of_slot_eq hslot hcl hcr hlt hle).symm
    · rw [Function.update_of_ne hslot]
      rcases h.filled c hcl hcr with ⟨q, hq⟩ | hdone
      · have hqp : q ≠ p := by
          rintro rfl
          exact hslot (congrArg (slot k) (Option.some.inj (hq.symm.trans hseq)))
        exact Or.inl ⟨q, (congrArg Pc.holding (goto_of_ne s hqp .idle)).trans hq⟩
      · exact Or.inr hdone
  case early =>
    intro c hcl hcr
    change Function.update s.committed (slot k seq) seq (slot k c) = sizeMax
    rw [Function.update_of_ne (slot_ne_of_early hcl hcr hlt)]
    exact h.early c hcl hcr
  case entry =>
    intro i
    change Function.update s.committed (slot k seq) seq i = sizeMax ∨
      (Function.update s.committed (slot k seq) seq i).toNat < s.cursor.toNat ∧
        slot k (Function.update s.committed (slot k seq) seq i) = i
    by_cases hi : i = slot k seq
    · subst hi
      rw [Function.update_self]
      exact Or.inr ⟨hlt, rfl⟩
    · rw [Function.update_of_ne hi]
      exact h.entry i
  case passed =>
    intro c hcl
    change Function.update s.committed (slot k seq) seq (slot k c) ≠ sizeMax
    by_cases hslot : slot k c = slot k seq
    · rw [hslot, Function.update_self]
      exact h.ne_sizeMax hlt
    · rw [Function.update_of_ne hslot]
      exact h.passed c hcl

end Claimed

/-- **The invariant is kept** by every step whose claim meets the condition. -/
theorem step_claimed {k : Fin 64} {s s' : Sys ι α} {a : Act ι α} (h : Claimed k s)
    (hc : ClaimsCommitted k s a) (hstep : step k s a = some s') : Claimed k s' := by
  cases steps_of_step hstep with
  | quiet p pc buffer _ hhold hload hcas => exact h.quiet hhold hload hcas
  | claim p item seq hpc hcur =>
      subst hcur
      rw [if_neg (h.cursor_ne_sizeMax hpc)]
      refine h.claim hpc (hc s.cursor ?_)
      simp [claims, hpc]
  | commit p seq hpc => exact h.commit hpc

/-! ### The result -/

omit [DecidableEq ι] in
/-- A step that claims is a compare-and-swap on the cursor. -/
theorem of_claims {s : Sys ι α} {a : Act ι α} {seq : UInt64} (h : claims s a = some seq) :
    ∃ p item, a = .move p false ∧ s.pc p = .cas item s.cursor ∧ seq = s.cursor := by
  cases a with
  | publish p item => cases h
  | move p spurious =>
      simp only [claims] at h
      split at h
      next item seq' hpc =>
        split at h
        next hwin =>
          obtain ⟨rfl, rfl⟩ := hwin
          exact ⟨p, item, rfl, hpc, (Option.some.inj h).symm⟩
        · cases h
      · cases h

omit [DecidableEq ι] in
/-- If a claim does not meet the condition, the number a lap before is held. -/
theorem Claimed.held_lap_before {k : Fin 64} {s : Sys ι α} (h : Claimed k s)
    (hlap : 2 ^ k.val ≤ s.cursor.toNat)
    (hun : s.committed (slot k s.cursor) ≠ s.cursor - capacity k) :
    ∃ q, (s.pc q).holding = some (s.cursor - capacity k) ∧
      slot k (s.cursor - capacity k) = slot k s.cursor := by
  have hpos := capacity_pos k
  have hsub := toNat_sub_capacity hlap
  have hslot : slot k (s.cursor - capacity k) = slot k s.cursor := slot_lap (by omega)
  rcases h.filled (s.cursor - capacity k) (by omega) (by omega) with ⟨q, hq⟩ | hdone
  · exact ⟨q, hq, hslot⟩
  · exact absurd (hslot ▸ hdone) hun

/-- A claim that does not meet the condition takes a slot that another producer holds. -/
theorem claimsCommitted_of_oneWriter {k : Fin 64} {s : Sys ι α} {a : Act ι α} (h : Claimed k s)
    (hone : ∀ s', step k s a = some s' → OneWriter k s') : ClaimsCommitted k s a := by
  intro seq hseq
  obtain ⟨p, item, rfl, hpc, rfl⟩ := of_claims hseq
  by_contra hnot
  obtain ⟨hcap, hun⟩ := not_or.1 hnot
  rw [UInt64.lt_iff_toNat_lt, toNat_capacity] at hcap
  obtain ⟨q, hq, hslot⟩ := h.held_lap_before (Nat.not_lt.1 hcap) hun
  have hqp := ne_of_holding hpc rfl hq
  have hstep : step k s (.move p false) =
      some { s.goto p (.write item s.cursor) with cursor := s.cursor + 1 } := by
    simp only [step, hpc, if_neg (h.cursor_ne_sizeMax hpc), and_self, if_true]
  refine hqp (hone _ hstep q p _ s.cursor ?_ ?_ hslot)
  · exact (congrArg Pc.holding (goto_of_ne s hqp _)).trans hq
  · exact congrArg Pc.holding (goto_self s p _)

/-- **The slots of the disruptor have one writer exactly when** every claim from the second lap on
finds the number a lap before it committed. -/
theorem one_writer_iff (k : Fin 64) (as : List (Act ι α)) :
    Throughout (step k) (OneWriter k) (start ι α) as ↔
      Along (step k) (ClaimsCommitted k) (start ι α) as :=
  throughout_iff_of_invariant (fun _ _ _ h hc hs => step_claimed h hc hs) (fun _ h => h.oneWriter)
    (fun _ _ h hone => claimsCommitted_of_oneWriter h hone) (claimed_start k)

end Machine

/-! ### A slow producer -/

/-- The steps of a producer that claims without contention and stops before it writes. -/
def claimAlone {ι : Type u} (p : ι) : List (Act ι Unit) :=
  .publish p () :: List.replicate 4 (.move p false)

/-- Three producers claim one after the other in a ring of two slots, and none of them commits. -/
def threeClaims : List (Act (Fin 3) Unit) := claimAlone 0 ++ claimAlone 1 ++ claimAlone 2

/-- The third producer holds the slot of the first, which has not been committed. -/
theorem slow_producer_shares_slot :
    ∃ s, run (step 1) (start (Fin 3) Unit) threeClaims = some s ∧ ¬ OneWriter 1 s := by
  refine ⟨_, rfl, fun h => ?_⟩
  have hsame : (0 : Fin 3) = 2 := h 0 2 0 2 rfl rfl (by decide)
  exact absurd hsame (by decide)

end Disruptor
