/-
**The lock-free object pool.**

`bt_lfpool_t` keeps objects on a list that is linked through a header in the objects themselves.
The pool starts empty: the threads have the objects and give them back one by one or in bulk.  A
bulk free links the array into a chain first, one write for each object but the last, and then
pushes the chain at once.  The frees go on with the value that a failed swap has seen; an alloc
starts over.  The pool is an instance of the lock-free stack of `TreiberStack`.

The header promises that it is safe to allocate and free from any thread without locks.  An alloc
reads `head->next` before the swap, and the swap compares the head alone.

Main definitions:

* `LockfreePool.Holdings` — who has which objects when the pool is made;
* `LockfreePool.Call`, `LockfreePool.threadStep` — the threads and their steps;
* `LockfreePool.btLfpoolInit` — the empty pool.

Main results:

* `LockfreePool.objects_have_one_owner_iff` — **every object has one owner exactly as long as no
  alloc swaps in a link that is out of date**.
-/

import AspiraBroker.TreiberStack

set_option relaxedAutoImplicit false
set_option autoImplicit false

namespace LockfreePool

open LinkedChain Transition TreiberStack

universe u v

variable {κ : Type u} {α : Type v}

/-- The objects that each thread has, none of them twice. -/
structure Holdings (κ : Type u) (α : Type v) where
  holds : κ → List α
  once : ∀ k, (holds k).Nodup
  alone : ∀ a k k', a ∈ holds k → a ∈ holds k' → k = k'

/-- All objects. -/
def Holdings.objects (H : Holdings κ α) : Set α := {a | ∃ k, a ∈ H.holds k}

/-- What a thread may do next. -/
inductive Call (κ : Type u) (α : Type v)
  | btLfpoolAlloc (k : κ)
  | btLfpoolFree (k : κ) (ptr : α)
  | btLfpoolBulkFree (k : κ) (ptrs : List α)
  /-- the thread overwrites the header of an object it holds -/
  | write (k : κ) (a : α) (w : Option α)
  /-- the thread takes the next step of its call -/
  | go (k : κ)

/-- The calls as operations on the stack of free objects: a bulk free of no object returns at
once. -/
def Call.act : Call κ α → Option (Act κ α)
  | .btLfpoolAlloc k => some (.alloc k)
  | .btLfpoolFree k ptr => some (.free k ⟨ptr, []⟩)
  | .btLfpoolBulkFree _ [] => none
  | .btLfpoolBulkFree k (first :: rest) => some (.free k ⟨first, rest⟩)
  | .write k a w => some (.write k a w)
  | .go k => some (.go k)

/-- `bt_lfpool_init`: the list is empty, and the headers of the objects hold `next`. -/
def btLfpoolInit (H : Holdings κ α) (next : α → Option α) : Sys κ α :=
  ⟨none, next, fun _ => .idle, H.holds⟩

/-- Every object is with the thread that has it. -/
theorem btLfpoolInit_inv (H : Holdings κ α) (next : α → Option α) :
    Inv H.objects (btLfpoolInit H next) := by
  have hplaces : ∀ k, (btLfpoolInit H next).places [] (some k) = H.holds k := fun k =>
    List.append_nil (H.holds k)
  refine ⟨⟨[], rfl, ?_, ?_, ?_⟩, fun _ => trivial⟩
  · intro a
    constructor
    · rintro ⟨k, ha⟩
      refine ⟨some k, ?_⟩
      rwa [hplaces]
    · rintro ⟨o, ha⟩
      cases o with
      | none => cases ha
      | some k => exact ⟨k, hplaces k ▸ ha⟩
  · intro a o o' ha ha'
    cases o with
    | none => cases ha
    | some k =>
        cases o' with
        | none => cases ha'
        | some k' => exact congrArg some (H.alone a k k' (hplaces k ▸ ha) (hplaces k' ▸ ha'))
  · intro o
    cases o with
    | none => exact List.nodup_nil
    | some k =>
        rw [hplaces]
        exact H.once k

section Steps

variable [DecidableEq κ] [DecidableEq α]

/-- One step of one thread. -/
def threadStep (σ : Sys κ α) (c : Call κ α) : Option (Sys κ α) := stepBy false Call.act σ c

/-- Every object is once on the list, or held or being freed by one thread. -/
def OwnedOnce (H : Holdings κ α) (σ : Sys κ α) : Prop := σ.Sound H.objects

/-- The step is not an alloc that returns an object which a thread holds or is freeing. -/
def ReturnsUnowned (σ : Sys κ α) (c : Call κ α) : Prop := MeetsBy PopsUnowned Call.act σ c

/-- The step is not an alloc that succeeds although the link of its object is no longer the one it
has read. -/
def ReadsLast (σ : Sys κ α) (c : Call κ α) : Prop := MeetsBy Fresh Call.act σ c

instance (σ : Sys κ α) (c : Call κ α) : Decidable (ReadsLast σ c) :=
  inferInstanceAs (Decidable (MeetsBy Fresh Call.act σ c))

/-- **Every object has one owner exactly as long as no alloc swaps in a link that is out of date**:
for any number of threads, whatever objects they start with, and any interleaving. -/
theorem objects_have_one_owner_iff (H : Holdings κ α) (next : α → Option α)
    (calls : List (Call κ α)) :
    (Throughout threadStep (OwnedOnce H) (btLfpoolInit H next) calls ∧
      Along threadStep ReturnsUnowned (btLfpoolInit H next) calls) ↔
    Along threadStep ReadsLast (btLfpoolInit H next) calls :=
  sound_iff (btLfpoolInit_inv H next) false Call.act calls

end Steps

/-- One thread has the objects `1`, `2` and `3`, another has none. -/
def threeObjects : Holdings Bool ℕ where
  holds k := if k then [1, 2, 3] else []
  once k := by cases k <;> decide
  alone a k k' h h' := by
    cases k <;> cases k' <;> simp_all

/-- The thread `true` frees its three objects in bulk.  The thread `false` reads the link of `1`,
which is `2`; `true` allocates `1` and `2` and frees `1`; then the swap of `false` succeeds, and its
next alloc returns `2`. -/
def poppedAndPushedBack : List (Call Bool ℕ) :=
  [.btLfpoolBulkFree true [1, 2, 3], .go true, .go true, .go true, .go true, .go true,
    .btLfpoolAlloc false, .go false, .go false,
    .btLfpoolAlloc true, .go true, .go true, .go true,
    .btLfpoolAlloc true, .go true, .go true, .go true,
    .write true 2 none,
    .btLfpoolFree true 1, .go true, .go true, .go true,
    .go false,
    .btLfpoolAlloc false, .go false, .go false, .go false]

/-- Two threads end up with the object `2`, and the object `3` is lost: no thread owns it and the
list is empty. -/
theorem object_has_two_owners :
    ∃ τ, run threadStep (btLfpoolInit threeObjects fun _ => none) poppedAndPushedBack = some τ ∧
      2 ∈ τ.holds false ∧ 2 ∈ τ.holds true ∧
      3 ∈ threeObjects.objects ∧ τ.head = none ∧ (∀ k, 3 ∉ τ.owned k) ∧
      ¬ OwnedOnce threeObjects τ := by
  refine ⟨_, rfl, by decide, by decide, ⟨true, by decide⟩, by decide, by decide, ?_⟩
  exact not_sound_of_shared (a := 2) (j := false) (k := true) (by decide) (by decide) (by decide)

end LockfreePool
