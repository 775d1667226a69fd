/-
**Which arena a memory pool hands out.**

`bt_mempool_init` puts an array of arenas at the end of the slab that it allocates.
`bt_mempool_assign_arena` hands them out in turn, by a counter of the pool.  `bt_mempool_get_arena`
does the same for the first call of a thread and keeps the arena in a variable of the thread; every
later call of the thread returns that arena, whichever pool it is called on, and whether the pool
that it came from still exists.  So a thread that uses two pools one after the other gets an arena
of the first from the second.  Besides, `bt_mempool_init` does not test whether the array fits into
the slab: if it does not, the first arena lies in front of the slab.

These are the only two ways in which a wrong arena is handed out.

Main definitions:

* `ArenaPool.Pool`, `ArenaPool.btMempoolInit`, `ArenaPool.btMempoolAssignArena`,
  `ArenaPool.btMempoolGetArena` — the pool;
* `ArenaPool.Sys`, `ArenaPool.Act`, `ArenaPool.step` — any number of pools and threads, with a
  ledger of the arenas handed out;
* `ArenaPool.Returns`, `ArenaPool.Apart` — what the callers rely on;
* `ArenaPool.CachedHere` — the thread's arena came from the pool that is asked, and the array fits;
* `ArenaPool.Ledgered` — the invariant.

Main results:

* `ArenaPool.step_ledgered` — the invariant is kept;
* `ArenaPool.arenas_not_shared_iff` — **every pool hands out its own arenas, each once, exactly as
  long as the condition holds**;
* `ArenaPool.arena_of_another_pool` — a thread that uses two pools.
-/

import AspiraBroker.TransitionRuns
import Mathlib.Algebra.Group.Nat.Defs
import Mathlib.Data.List.Nodup
import Mathlib.Logic.Function.Basic

set_option relaxedAutoImplicit false
set_option autoImplicit false

namespace ArenaPool

open Transition

universe u v

/-! ### Pools -/

/-- `sizeof(bt_mempool_arena_t)`. -/
def sizeofArena : ℕ := 64

/-- A pointer to an arena: the slab that it points into, by the number of its allocation, and the
offset from the start of the slab, modulo `2 ^ 64`. -/
structure ArenaPtr where
  slab : ℕ
  offset : ℕ
  deriving DecidableEq

/-- A `bt_mempool_t` with a slab; `arenas` is the offset of the array. -/
structure Pool where
  slab : ℕ
  totalSize : UInt64
  numArenas : ℕ
  arenas : UInt64
  arenaCounter : UInt64

/-- `&arenas[id]`. -/
def Pool.arena (P : Pool) (id : ℕ) : ArenaPtr :=
  ⟨P.slab, (P.arenas.toNat + id * sizeofArena) % 2 ^ 64⟩

/-- `bt_mempool_init`, once the slab is allocated: the array of arenas is put at the end of it. -/
def btMempoolInit (slab : ℕ) (totalSize : UInt64) (numArenas : Int32) : Pool where
  slab := slab
  totalSize := totalSize
  numArenas := numArenas.toNatClampNeg
  arenas := totalSize - UInt64.ofNat (numArenas.toNatClampNeg * sizeofArena)
  arenaCounter := 0

/-- `bt_mempool_assign_arena`: the pool after the call, and the arena. -/
def btMempoolAssignArena (P : Pool) : Pool × ArenaPtr :=
  ({ P with arenaCounter := P.arenaCounter + 1 }, P.arena (P.arenaCounter.toNat % P.numArenas))

/-- `bt_mempool_get_arena`, for a thread whose `tls_arena` is given. -/
def btMempoolGetArena (tlsArena : Option ArenaPtr) (P : Pool) : Pool × ArenaPtr :=
  match tlsArena with
  | some a => (P, a)
  | none => btMempoolAssignArena P

/-- The array of arenas fits into the slab. -/
def Pool.Fits (P : Pool) : Prop := P.numArenas * sizeofArena ≤ P.totalSize.toNat

instance (P : Pool) : Decidable P.Fits :=
  inferInstanceAs (Decidable (P.numArenas * sizeofArena ≤ P.totalSize.toNat))

/-! ### The ledger of one pool -/

/-- The arena is one of the pool's array, and lies in the pool's slab. -/
def Pool.Owns (P : Pool) (a : ArenaPtr) : Prop :=
  (∃ i < P.numArenas, a = P.arena i) ∧ a.offset + sizeofArena ≤ P.totalSize.toNat

/-- An arena was handed out: the slab of the pool that was asked, the thread that keeps it, if it
was asked for by `bt_mempool_get_arena`, and the arena. -/
structure Handout (κ : Type u) where
  slab : ℕ
  who : Option κ
  arena : ArenaPtr
  deriving DecidableEq

/-- What `bt_mempool_init` leaves: a positive number of arenas, and the array at the end. -/
structure Pool.WellFormed (P : Pool) : Prop where
  pos : 0 < P.numArenas
  lt : P.numArenas < 2 ^ 31
  arenas : P.arenas = P.totalSize - UInt64.ofNat (P.numArenas * sizeofArena)

theorem wellFormed_init {slab : ℕ} {totalSize : UInt64} {numArenas : Int32}
    (h : ¬ numArenas < 1) : (btMempoolInit slab totalSize numArenas).WellFormed where
  pos := by
    have := Int32.not_lt.1 h
    have hle : (1 : Int32).toInt ≤ numArenas.toInt := Int32.le_iff_toInt_le.1 this
    have hone : (1 : Int32).toInt = 1 := by decide
    change 0 < numArenas.toInt.toNat
    omega
  lt := by
    have := numArenas.toInt_lt
    change numArenas.toInt.toNat < 2 ^ 31
    omega
  arenas := rfl

namespace Pool.WellFormed

variable {P : Pool} (hP : P.WellFormed)

include hP

theorem toNat_size : (UInt64.ofNat (P.numArenas * sizeofArena)).toNat =
    P.numArenas * sizeofArena := by
  have := hP.lt
  rw [UInt64.toNat_ofNat']
  refine Nat.mod_eq_of_lt ?_
  simp only [sizeofArena]
  omega

/-- Different numbers are different arenas, wherever the array lies. -/
theorem arena_injective {i j : ℕ} (hi : i < P.numArenas) (hj : j < P.numArenas)
    (h : P.arena i = P.arena j) : i = j := by
  have hlt := hP.lt
  have heq : (P.arenas.toNat + i * 64) % 2 ^ 64 = (P.arenas.toNat + j * 64) % 2 ^ 64 :=
    congrArg ArenaPtr.offset h
  omega

/-- An array that fits into the slab has all its arenas there. -/
theorem owns_arena (hfit : P.Fits) {i : ℕ} (hi : i < P.numArenas) : P.Owns (P.arena i) := by
  refine ⟨⟨i, hi, rfl⟩, ?_⟩
  have hsub : P.arenas.toNat = P.totalSize.toNat - P.numArenas * sizeofArena := by
    rw [hP.arenas, UInt64.toNat_sub_of_le _ _ (UInt64.le_iff_toNat_le.2 (by rwa [hP.toNat_size])),
      hP.toNat_size]
  have hlt := P.totalSize.toNat_lt
  simp only [Pool.Fits, sizeofArena] at hfit
  simp only [Pool.arena, hsub, sizeofArena]
  omega

/-- The first arena of an array that does not fit lies in front of the slab. -/
theorem not_owns_zero (hfit : ¬ P.Fits) : ¬ P.Owns (P.arena 0) := by
  rintro ⟨-, hin⟩
  have hlt := hP.lt
  have hsub : P.arenas.toNat =
      2 ^ 64 - P.numArenas * sizeofArena + P.totalSize.toNat := by
    have hbound := P.totalSize.toNat_lt
    rw [hP.arenas, UInt64.toNat_sub, hP.toNat_size]
    simp only [Pool.Fits, sizeofArena] at hfit ⊢
    omega
  simp only [Pool.Fits, sizeofArena] at hfit
  simp only [Pool.arena, hsub, sizeofArena] at hin
  omega

end Pool.WellFormed

/-- The arenas handed out of a pool are those of its array in turn, and none of an array that does
not fit. -/
structure Dealt {κ : Type u} (P : Pool) (hs : List (Handout κ)) : Prop where
  count : P.arenaCounter.toNat = hs.length % 2 ^ 64
  arenas : hs.map Handout.arena =
    (List.range hs.length).map fun k => P.arena (k % 2 ^ 64 % P.numArenas)
  fits : hs ≠ [] → P.Fits

namespace Dealt

variable {κ : Type u} {P : Pool} {hs : List (Handout κ)}

/-- Handing out the next arena. -/
theorem assign (h : Dealt P hs) (hfit : P.Fits) (who : Option κ) :
    Dealt (btMempoolAssignArena P).1 (hs ++ [⟨P.slab, who, (btMempoolAssignArena P).2⟩]) where
  count := by
    have hc := h.count
    simp only [btMempoolAssignArena, UInt64.toNat_add, UInt64.toNat_one, List.length_append,
      List.length_singleton]
    omega
  arenas := by
    rw [List.map_append, h.arenas, List.length_append, List.length_singleton, List.range_succ,
      List.map_append]
    change _ = _ ++ [P.arena (hs.length % 2 ^ 64 % P.numArenas)]
    rw [← h.count]
    rfl
  fits := fun _ => hfit

/-- The first round gives every arena once. -/
theorem nodup (h : Dealt P hs) (hP : P.WellFormed) (hlen : hs.length ≤ P.numArenas) :
    (hs.map Handout.arena).Nodup := by
  have hlt := hP.lt
  rw [h.arenas]
  refine List.Nodup.map_on ?_ List.nodup_range
  intro i hi j hj heq
  rw [List.mem_range] at hi hj
  rw [Nat.mod_eq_of_lt (by omega : i < 2 ^ 64), Nat.mod_eq_of_lt (by omega : j < 2 ^ 64),
    Nat.mod_eq_of_lt (by omega : i < P.numArenas), Nat.mod_eq_of_lt (by omega : j < P.numArenas)]
    at heq
  exact hP.arena_injective (by omega) (by omega) heq

/-- What was handed out is the pool's own. -/
theorem owns (h : Dealt P hs) (hP : P.WellFormed) {e : Handout κ} (he : e ∈ hs) :
    P.Owns e.arena := by
  have hmem : e.arena ∈ hs.map Handout.arena := List.mem_map_of_mem he
  rw [h.arenas] at hmem
  obtain ⟨k, -, hk⟩ := List.mem_map.1 hmem
  rw [← hk]
  exact hP.owns_arena (h.fits (List.ne_nil_of_mem he)) (Nat.mod_lt _ hP.pos)

/-- The next arena is the pool's own exactly when the array fits. -/
theorem owns_assign_iff (h : Dealt P hs) (hP : P.WellFormed) :
    P.Owns (btMempoolAssignArena P).2 ↔ P.Fits := by
  constructor
  · intro hown
    by_contra hfit
    -- nothing has been handed out yet, so the next one is the first
    obtain rfl : hs = [] := by
      by_contra hne
      exact hfit (h.fits hne)
    have hzero : P.arenaCounter.toNat = 0 := h.count
    refine hP.not_owns_zero hfit ?_
    simpa [btMempoolAssignArena, hzero] using hown
  · intro hfit
    exact hP.owns_arena hfit (Nat.mod_lt _ hP.pos)

end Dealt

/-! ### The machine -/

/-- The pools that are live, the threads' `tls_arena`, the number of slabs allocated so far, and the
ledger: every arena that was handed out, a thread's arena of one pool only the first time. -/
structure Sys (κ : Type u) (π : Type v) where
  pools : π → Option Pool
  tls : κ → Option ArenaPtr
  slabs : ℕ
  handed : List (Handout κ)

/-- The calls.  `allocOk` says whether the allocation of the slab succeeds. -/
inductive Act (κ : Type u) (π : Type v)
  | init (p : π) (totalSize : UInt64) (numArenas : Int32) (allocOk : Bool)
  | getArena (t : κ) (p : π)
  | assignArena (p : π)
  | destroy (p : π)

section Machine

variable {κ : Type u} {π : Type v}

/-- No pool, and no thread has an arena. -/
def start (κ : Type u) (π : Type v) : Sys κ π := ⟨fun _ => none, fun _ => none, 0, []⟩

/-- What was handed out of a slab's pool. -/
def Sys.handedOf (s : Sys κ π) (slab : ℕ) : List (Handout κ) :=
  s.handed.filter fun h => h.slab = slab

variable [DecidableEq κ] [DecidableEq π]

/-- The thread has an arena of the pool with that slab in the ledger. -/
def Sys.served (s : Sys κ π) (slab : ℕ) (t : κ) : Bool :=
  s.handed.any fun h => h.slab = slab ∧ h.who = some t

/-- One call.  The arenas are asked for on live pools only. -/
def step (s : Sys κ π) : Act κ π → Option (Sys κ π)
  | .init p totalSize numArenas allocOk =>
      if totalSize = 0 ∨ numArenas < 1 then some s
      else if allocOk then
        some { s with
          pools := Function.update s.pools p (some (btMempoolInit s.slabs totalSize numArenas))
          slabs := s.slabs + 1 }
      else
        -- the struct has been cleared before the allocation failed
        some { s with pools := Function.update s.pools p none }
  | .getArena t p =>
      (s.pools p).map fun P =>
        let r := btMempoolGetArena (s.tls t) P
        { s with
          pools := Function.update s.pools p (some r.1)
          tls := Function.update s.tls t (some r.2)
          handed := if s.served P.slab t then s.handed else s.handed ++ [⟨P.slab, some t, r.2⟩] }
  | .assignArena p =>
      (s.pools p).map fun P =>
        let r := btMempoolAssignArena P
        { s with
          pools := Function.update s.pools p (some r.1)
          handed := s.handed ++ [⟨P.slab, none, r.2⟩] }
  | .destroy p => some { s with pools := Function.update s.pools p none }

/-! ### What the callers rely on, and when they can -/

/-- The pool returns an arena of its own, and to a thread always the same. -/
def Returns (s : Sys κ π) : Act κ π → Prop
  | .getArena t p => ∀ P, s.pools p = some P →
      P.Owns (btMempoolGetArena (s.tls t) P).2 ∧
        ∀ h ∈ s.handed, h.slab = P.slab → h.who = some t →
          h.arena = (btMempoolGetArena (s.tls t) P).2
  | .assignArena p => ∀ P, s.pools p = some P → P.Owns (btMempoolAssignArena P).2
  | _ => True

/-- As long as no more arenas of a pool have been handed out than it has, they are all different. -/
def Apart (s : Sys κ π) : Prop :=
  ∀ p P, s.pools p = some P → (s.handedOf P.slab).length ≤ P.numArenas →
    ((s.handedOf P.slab).map Handout.arena).Nodup

/-- The thread's arena, if it has one, is of the slab of the pool that is asked; and an arena is
taken only of an array that fits into its slab. -/
def CachedHere (s : Sys κ π) : Act κ π → Prop
  | .getArena t p => ∀ P, s.pools p = some P →
      match s.tls t with
      | some a => a.slab = P.slab
      | none => P.Fits
  | .assignArena p => ∀ P, s.pools p = some P → P.Fits
  | _ => True

/-! ### The invariant -/

omit [DecidableEq κ] [DecidableEq π] in
theorem mem_handedOf {s : Sys κ π} {slab : ℕ} {h : Handout κ} :
    h ∈ s.handedOf slab ↔ h ∈ s.handed ∧ h.slab = slab := by
  simp [Sys.handedOf]

/-- The live pools have slabs of their own and have dealt out what the ledger says; a thread keeps
the arena that the ledger has for it, and the ledger has at most one for a thread. -/
structure Ledgered (s : Sys κ π) : Prop where
  wellFormed : ∀ p P, s.pools p = some P → P.WellFormed
  dealt : ∀ p P, s.pools p = some P → Dealt P (s.handedOf P.slab)
  slab_lt : ∀ p P, s.pools p = some P → P.slab < s.slabs
  handed_lt : ∀ h ∈ s.handed, h.slab < s.slabs
  slab_inj : ∀ p q P Q, s.pools p = some P → s.pools q = some Q → P.slab = Q.slab → p = q
  cached : ∀ t a, s.tls t = some a → ⟨a.slab, some t, a⟩ ∈ s.handed
  kept : ∀ h ∈ s.handed, ∀ t, h.who = some t → s.tls t = some h.arena

omit [DecidableEq κ] [DecidableEq π] in
theorem ledgered_start : Ledgered (start κ π) := by
  refine ⟨?_, ?_, ?_, ?_, ?_, ?_, ?_⟩ <;> simp [start]

omit [DecidableEq κ] in
/-- Giving the slot of a pool up. -/
theorem Ledgered.clear {s : Sys κ π} (h : Ledgered s) (p : π) :
    Ledgered { s with pools := Function.update s.pools p none } := by
  have hold : ∀ q Q, Function.update s.pools p none q = some Q → s.pools q = some Q := by
    intro q Q hq
    rcases of_update (P := (· = some Q)) hq with ⟨-, hQ⟩ | ⟨-, hQ⟩
    · cases hQ
    · exact hQ
  exact
    { wellFormed := fun q Q hq => h.wellFormed q Q (hold q Q hq)
      dealt := fun q Q hq => h.dealt q Q (hold q Q hq)
      slab_lt := fun q Q hq => h.slab_lt q Q (hold q Q hq)
      handed_lt := h.handed_lt
      slab_inj := fun q r Q R hq hr => h.slab_inj q r Q R (hold q Q hq) (hold r R hr)
      cached := h.cached
      kept := h.kept }

omit [DecidableEq κ] in
/-- A new pool has a slab of its own, of which nothing has been handed out. -/
theorem Ledgered.init {s : Sys κ π} (h : Ledgered s) (p : π) {totalSize : UInt64}
    {numArenas : Int32} (hn : ¬ numArenas < 1) :
    Ledgered { s with
      pools := Function.update s.pools p (some (btMempoolInit s.slabs totalSize numArenas))
      slabs := s.slabs + 1 } := by
  have hempty : s.handedOf s.slabs = [] := by
    refine List.eq_nil_iff_forall_not_mem.2 fun e he => ?_
    obtain ⟨hmem, hslab⟩ := mem_handedOf.1 he
    have := h.handed_lt e hmem
    omega
  constructor
  case wellFormed =>
    intro q Q hq
    rcases of_update (P := (· = some Q)) hq with ⟨rfl, ⟨⟩⟩ | ⟨-, hq⟩
    · exact wellFormed_init hn
    · exact h.wellFormed q Q hq
  case dealt =>
    intro q Q hq
    rcases of_update (P := (· = some Q)) hq with ⟨rfl, ⟨⟩⟩ | ⟨-, hq⟩
    · change Dealt _ (s.handedOf s.slabs)
      rw [hempty]
      exact ⟨rfl, rfl, fun hne => absurd rfl hne⟩
    · exact h.dealt q Q hq
  case slab_lt =>
    intro q Q hq
    rcases of_update (P := (· = some Q)) hq with ⟨rfl, ⟨⟩⟩ | ⟨-, hq⟩
    · exact Nat.lt_succ_self _
    · exact Nat.lt_succ_of_lt (h.slab_lt q Q hq)
  case handed_lt =>
    intro e he
    exact Nat.lt_succ_of_lt (h.handed_lt e he)
  case cached => exact h.cached
  case kept => exact h.kept
  case slab_inj =>
    intro q r Q R hq hr hslab
    rcases of_update (P := (· = some Q)) hq with ⟨rfl, ⟨⟩⟩ | ⟨-, hq'⟩ <;>
      rcases of_update (P := (· = some R)) hr with ⟨rfl, ⟨⟩⟩ | ⟨-, hr'⟩
    · rfl
    · exact absurd hslab.symm (Nat.ne_of_lt (h.slab_lt r R hr'))
    · exact absurd hslab (Nat.ne_of_lt (h.slab_lt q Q hq'))
    · exact h.slab_inj q r Q R hq' hr' hslab

omit [DecidableEq κ] [DecidableEq π] in
/-- What was handed out from a slab after one more entry in the ledger. -/
theorem handedOf_append (s : Sys κ π) (pools : π → Option Pool) (tls : κ → Option ArenaPtr)
    (e : Handout κ) (slab : ℕ) :
    Sys.handedOf { s with pools := pools, tls := tls, handed := s.handed ++ [e] } slab =
      s.handedOf slab ++ if e.slab = slab then [e] else [] := by
  rw [Sys.handedOf, List.filter_append]
  by_cases hslab : e.slab = slab <;> simp [Sys.handedOf, hslab]

omit [DecidableEq κ] in
/-- A pool deals out its next arena, to a thread or not; a thread has none yet, and keeps it. -/
theorem Ledgered.draw {s : Sys κ π} (h : Ledgered s) {p : π} {P : Pool} (hp : s.pools p = some P)
    (hfit : P.Fits) (who : Option κ) (tls : κ → Option ArenaPtr)
    (hnew : ∀ t, who = some t → s.tls t = none ∧ tls t = some (btMempoolAssignArena P).2)
    (hold : ∀ t, who ≠ some t → tls t = s.tls t) :
    Ledgered { s with
      pools := Function.update s.pools p (some (btMempoolAssignArena P).1)
      tls := tls
      handed := s.handed ++ [⟨P.slab, who, (btMempoolAssignArena P).2⟩] } := by
  constructor
  case wellFormed =>
    intro q Q hq
    rcases of_update (P := (· = some Q)) hq with ⟨rfl, ⟨⟩⟩ | ⟨-, hq⟩
    · obtain ⟨hpos, hlt, harr⟩ := h.wellFormed q P hp
      exact ⟨hpos, hlt, harr⟩
    · exact h.wellFormed q Q hq
  case dealt =>
    intro q Q hq
    rw [handedOf_append]
    rcases of_update (P := (· = some Q)) hq with ⟨rfl, ⟨⟩⟩ | ⟨hne, hq⟩
    · have hslab : P.slab = (btMempoolAssignArena P).1.slab := rfl
      rw [if_pos hslab]
      exact (h.dealt q P hp).assign hfit who
    · have hslab : P.slab ≠ Q.slab := fun heq => hne (h.slab_inj q p Q P hq hp heq.symm)
      rw [if_neg hslab, List.append_nil]
      exact h.dealt q Q hq
  case slab_lt =>
    intro q Q hq
    rcases of_update (P := (· = some Q)) hq with ⟨rfl, ⟨⟩⟩ | ⟨-, hq⟩
    · exact h.slab_lt q P hp
    · exact h.slab_lt q Q hq
  case handed_lt =>
    intro e he
    rcases List.mem_append.1 he with he | he
    · exact h.handed_lt e he
    · obtain rfl := List.mem_singleton.1 he
      exact h.slab_lt p P hp
  case slab_inj =>
    intro q r Q R hq hr hslab
    rcases of_update (P := (· = some Q)) hq with ⟨rfl, ⟨⟩⟩ | ⟨-, hq'⟩ <;>
      rcases of_update (P := (· = some R)) hr with ⟨rfl, ⟨⟩⟩ | ⟨-, hr'⟩
    · rfl
    · exact h.slab_inj q r P R hp hr' hslab
    · exact h.slab_inj q r Q P hq' hp hslab
    · exact h.slab_inj q r Q R hq' hr' hslab
  case cached =>
    intro t a ha
    change tls t = some a at ha
    by_cases hwho : who = some t
    · subst hwho
      obtain rfl := Option.some.inj ((hnew t rfl).2.symm.trans ha)
      exact List.mem_append_right _ (List.mem_singleton_self _)
    · rw [hold t hwho] at ha
      exact List.mem_append_left _ (h.cached t a ha)
  case kept =>
    intro e he t ht
    change tls t = some e.arena
    rcases List.mem_append.1 he with he | he
    · have hkept := h.kept e he t ht
      by_cases hwho : who = some t
      · rw [(hnew t hwho).1] at hkept
        cases hkept
      · rw [hold t hwho, hkept]
    · obtain rfl := List.mem_singleton.1 he
      exact (hnew t ht).2

omit [DecidableEq κ] [DecidableEq π] in
/-- The ledger has nothing for a thread without an arena. -/
theorem Ledgered.who_ne {s : Sys κ π} (h : Ledgered s) {t : κ} (ht : s.tls t = none)
    {e : Handout κ} (he : e ∈ s.handed) : e.who ≠ some t := by
  intro hwho
  have hkept := h.kept e he t hwho
  rw [ht] at hkept
  cases hkept

/-- A thread's first call. -/
theorem Ledgered.getFirst {s : Sys κ π} (h : Ledgered s) {t : κ} {p : π} {P : Pool}
    (hp : s.pools p = some P) (ht : s.tls t = none) (hfit : P.Fits) :
    Ledgered { s with
      pools := Function.update s.pools p (some (btMempoolAssignArena P).1)
      tls := Function.update s.tls t (some (btMempoolAssignArena P).2)
      handed := s.handed ++ [⟨P.slab, some t, (btMempoolAssignArena P).2⟩] } := by
  refine h.draw hp hfit (some t) _ ?_ ?_
  · intro u hu
    obtain rfl := Option.some.inj hu
    exact ⟨ht, Function.update_self _ _ _⟩
  · intro u hu
    exact Function.update_of_ne (fun huv => hu (by rw [huv])) _ _

/-- **The invariant is kept** by every call that meets the condition. -/
theorem step_ledgered {s s' : Sys κ π} {a : Act κ π} (h : Ledgered s) (hc : CachedHere s a)
    (hstep : step s a = some s') : Ledgered s' := by
  cases a with
  | init p totalSize numArenas allocOk =>
      simp only [step] at hstep
      split at hstep
      · cases hstep
        exact h
      next hargs =>
        split at hstep
        · cases hstep
          exact h.init p fun hn => hargs (Or.inr hn)
        · cases hstep
          exact h.clear p
  | getArena t p =>
      obtain ⟨P, hp, rfl⟩ := Option.map_eq_some_iff.1 hstep
      have hc := hc P hp
      cases ht : s.tls t with
      | none =>
          rw [ht] at hc
          have hserved : s.served P.slab t = false := by
            refine Bool.eq_false_iff.2 fun hserved => ?_
            obtain ⟨e, he, hprop⟩ := List.any_eq_true.1 hserved
            exact h.who_ne ht he (of_decide_eq_true hprop).2
          have hfirst := h.getFirst hp ht hc
          simpa only [btMempoolGetArena, ht, hserved, Bool.false_eq_true, if_false] using hfirst
      | some a =>
          rw [ht] at hc
          have hserved : s.served P.slab t = true := by
            refine List.any_eq_true.2 ⟨_, h.cached t a ht, ?_⟩
            simpa using hc
          have hself : Function.update s.pools p (some P) = s.pools := by
            rw [← hp, Function.update_eq_self]
          have htls : Function.update s.tls t (some a) = s.tls := by
            rw [← ht, Function.update_eq_self]
          simp only [btMempoolGetArena, hserved, if_true, hself, htls]
          exact h
  | assignArena p =>
      obtain ⟨P, hp, rfl⟩ := Option.map_eq_some_iff.1 hstep
      exact h.draw hp (hc P hp) none s.tls (fun t ht => by cases ht) fun _ _ => rfl
  | destroy p =>
      cases hstep
      exact h.clear p

/-! ### The results -/

omit [DecidableEq κ] [DecidableEq π] in
/-- Under the invariant the condition says exactly that the right arena is returned. -/
theorem returns_iff {s : Sys κ π} (h : Ledgered s) (a : Act κ π) :
    Returns s a ↔ CachedHere s a := by
  cases a with
  | init p totalSize numArenas allocOk => exact Iff.rfl
  | destroy p => exact Iff.rfl
  | assignArena p =>
      refine forall₂_congr fun P hp => ?_
      exact (h.dealt p P hp).owns_assign_iff (h.wellFormed p P hp)
  | getArena t p =>
      refine forall₂_congr fun P hp => ?_
      cases ht : s.tls t with
      | none =>
          have hnone : ∀ e ∈ s.handed, e.slab = P.slab → e.who = some t →
              e.arena = (btMempoolGetArena none P).2 := by
            intro e he _ hwho
            exact absurd hwho (h.who_ne ht he)
          rw [and_iff_left hnone]
          exact (h.dealt p P hp).owns_assign_iff (h.wellFormed p P hp)
      | some a =>
          have hsame : ∀ e ∈ s.handed, e.slab = P.slab → e.who = some t →
              e.arena = (btMempoolGetArena (some a) P).2 := by
            intro e he _ hwho
            exact Option.some.inj ((h.kept e he t hwho).symm.trans ht)
          rw [and_iff_left hsame]
          constructor
          · rintro ⟨⟨i, -, hi⟩, -⟩
            exact congrArg ArenaPtr.slab hi
          · intro hslab
            have hmem : (⟨a.slab, some t, a⟩ : Handout κ) ∈ s.handedOf P.slab :=
              mem_handedOf.2 ⟨h.cached t a ht, hslab⟩
            exact (h.dealt p P hp).owns (h.wellFormed p P hp) hmem

omit [DecidableEq κ] [DecidableEq π] in
theorem Ledgered.apart {s : Sys κ π} (h : Ledgered s) : Apart s :=
  fun p P hp hlen => (h.dealt p P hp).nodup (h.wellFormed p P hp) hlen

/-- **Every pool hands out its own arenas, to a thread always the same one, and each of them once
in the first round, exactly as long as** a thread asks only the pool that its arena came from and
no arena is taken of an array that does not fit into its slab. -/
theorem arenas_not_shared_iff (as : List (Act κ π)) :
    (Along step Returns (start κ π) as ∧ Throughout step Apart (start κ π) as) ↔
      Along step CachedHere (start κ π) as := by
  have hiff : Along step Returns (start κ π) as ↔ Along step CachedHere (start κ π) as :=
    along_iff_of_invariant (fun s a s' h hc hs => step_ledgered h hc hs)
      (fun s a h => returns_iff h a) ledgered_start
  constructor
  · rintro ⟨hret, -⟩
    exact hiff.1 hret
  · intro hc
    exact ⟨hiff.2 hc, throughout_of_invariant (fun s a s' h hc hs => step_ledgered h hc hs)
      (fun s h => h.apart) ledgered_start hc⟩

end Machine

/-! ### A thread that uses two pools -/

/-- Two pools of one arena each; the only thread asks both. -/
def twoPools : List (Act Unit Bool) :=
  [.init false 4096 1 true, .init true 4096 1 true, .getArena () false, .getArena () true]

/-- The second pool returns an arena of the first pool's slab. -/
theorem arena_of_another_pool :
    (run step (start Unit Bool) twoPools).isSome ∧
      ¬ Along step Returns (start Unit Bool) twoPools := by
  refine ⟨rfl, fun h => ?_⟩
  have hlast := ((h.2 _ rfl).2 _ rfl).2 _ rfl |>.1 _ rfl
  obtain ⟨⟨⟨i, -, hi⟩, -⟩, -⟩ := hlast
  have hslab : (0 : ℕ) = 1 := congrArg ArenaPtr.slab hi
  exact absurd hslab Nat.zero_ne_one

end ArenaPool
