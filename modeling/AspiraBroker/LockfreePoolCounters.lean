/-
**The counters of the lock-free pool.**

`bt_lfpool_alloc` adds one to `alloc_count` after its swap, `bt_lfpool_free` one to `free_count`,
and `bt_lfpool_bulk_free` the length of its array.  Other threads may allocate and count an object
in between the swap of a free and its count, so that `bt_lfpool_stats` may report more allocs than
frees.  What the two counters say together is exact again whenever no call is in progress: the
difference is the number of objects in the pool, even after the counters have wrapped around.

Main definitions:

* `LockfreePool.Pending`, `LockfreePool.counting` — the counter updates after the swap;
* `LockfreePool.Move`, `LockfreePool.countedStep` — the threads, with the counters;
* `LockfreePool.Counted` — the invariant.

Main results:

* `LockfreePool.stats_difference_is_size` — **frees minus allocs is the size of the pool whenever no
  call is in progress**;
* `LockfreePool.steps_bounded_by_calls_and_links` — **the pool is lock-free**: `n` threads take at
  most `3 * n + 1` steps for each call, and one for each link inside of a bulk free, and are never
  stuck inside of a call.
-/

import AspiraBroker.LockfreePool
import AspiraBroker.TreiberClients

set_option relaxedAutoImplicit false
set_option autoImplicit false

namespace LockfreePool

open LinkedChain Transition TreiberStack

universe u v

/-! ### The machine -/

/-- The counter update that a call has left to do. -/
inductive Pending
  | allocAdd
  | freeAdd (count : ℕ)
  deriving DecidableEq

/-- The counters, of 64 bits. -/
structure Counters where
  allocCount : ℕ
  freeCount : ℕ
  deriving DecidableEq

/-- What the calls do after their swap. -/
def counting : Epilogue Pending Counters where
  afterPop := .allocAdd
  afterPush n := .freeAdd n
  tick
    | .allocAdd, c => (none, { c with allocCount := (c.allocCount + 1) % 2 ^ 64 })
    | .freeAdd count, c => (none, { c with freeCount := (c.freeCount + count) % 2 ^ 64 })

variable {κ : Type u} {α : Type v}

/-- What may happen: a thread acts, or passes an object that it holds on to another thread. -/
abbrev Move (κ : Type u) (α : Type v) := TreiberStack.Move (Call κ α) κ α

/-- The pool after `bt_lfpool_init`, with no call in progress. -/
def counted (H : Holdings κ α) (next : α → Option α) : Shared κ α Pending Counters :=
  ⟨btLfpoolInit H next, fun _ => none, ⟨0, 0⟩⟩

/-- `bt_lfpool_stats`: the allocs and the frees. -/
def btLfpoolStats (c : Counters) : ℕ × ℕ := (c.allocCount, c.freeCount)

section Step

variable [DecidableEq κ] [DecidableEq α]

/-- One step of one thread. -/
def countedStep (σ : Shared κ α Pending Counters) (m : Move κ α) :
    Option (Shared κ α Pending Counters) :=
  counting.stepBy false Call.act σ m

/-- The move is not an alloc that succeeds although the link of its object is no longer the one it
has read. -/
def ReadsCurrent (σ : Shared κ α Pending Counters) (m : Move κ α) : Prop :=
  FreshBy Call.act σ m

instance (σ : Shared κ α Pending Counters) (m : Move κ α) : Decidable (ReadsCurrent σ m) :=
  inferInstanceAs (Decidable (FreshBy Call.act σ m))

/-! ### The invariant -/

/-- What is left to add to the difference of the counters. -/
def owes : Option Pending → ℤ
  | some .allocAdd => -1
  | some (.freeAdd count) => count
  | none => 0

/-- The updates do what they owe, up to the wrapping. -/
theorem tick_owes (r : Pending) (c : Counters) :
    ((counting.tick r c).2.freeCount : ℤ) - (counting.tick r c).2.allocCount +
        owes (counting.tick r c).1 ≡
      c.freeCount - c.allocCount + owes (some r) [ZMOD 2 ^ 64] := by
  unfold Int.ModEq
  cases r with
  | allocAdd =>
      simp only [counting, owes]
      omega
  | freeAdd count =>
      simp only [counting, owes]
      omega

variable [Fintype κ]

/-- Every object has one owner, and the counters together are off by the updates that are
pending. -/
structure Counted (H : Holdings κ α) (σ : Shared κ α Pending Counters) : Prop where
  inv : Inv H.objects σ.stack
  books : Epilogue.Books (2 ^ 64) (fun c => (c.freeCount : ℤ) - c.allocCount) owes H.objects.ncard
    (-1) σ

variable {H : Holdings κ α} {σ σ' : Shared κ α Pending Counters} {m : Move κ α}

/-- **One step keeps the counters right.** -/
theorem Counted.step (h : Counted H σ) (hcurrent : ReadsCurrent σ m)
    (hstep : countedStep σ m = some σ') : Counted H σ' := by
  rcases Epilogue.deed_of_stepBy hstep with ⟨-, rfl⟩ | ⟨d, hd, hdeed⟩
  · exact h
  · refine ⟨Epilogue.inv_step h.inv (hcurrent d hd) hdeed, ?_⟩
    refine Epilogue.books_step h.books hdeed rfl rfl (fun k b w _ => ?_)
      fun k r _ => tick_owes r σ.state
    change ((b.nodes.length : ℕ) : ℤ) = -(b.nodes.length * -1)
    ring

omit [DecidableEq κ] in
/-- After `bt_lfpool_init` all objects are with the threads. -/
theorem counted_init (H : Holdings κ α) (next : α → Option α) : Counted H (counted H next) := by
  have hinv := btLfpoolInit_inv H next
  refine ⟨hinv, ?_⟩
  obtain ⟨l, hchain, hparts⟩ := hinv.sound.length_add_outstanding
  obtain rfl : l = [] := hchain.eq_nil
  simp only [Epilogue.Books, counted, owes, Finset.sum_const_zero, ← hparts, List.length_nil]
  push_cast
  ring_nf
  rfl

end Step

/-- **Frees minus allocs is the size of the pool whenever no call is in progress**: for any number
of threads, whatever objects they start with, and every interleaving of their steps, as long as no
alloc swaps in a link that is out of date.  The counters are of 64 bits, and may wrap around. -/
theorem stats_difference_is_size [Fintype κ] [DecidableEq κ] [DecidableEq α] (H : Holdings κ α)
    (next : α → Option α) (moves : List (Move κ α))
    (hcurrent : Along countedStep ReadsCurrent (counted H next) moves)
    {σ : Shared κ α Pending Counters} (hrun : run countedStep (counted H next) moves = some σ)
    (hquiet : Quiet σ) :
    ∃ l, Chain σ.stack.next σ.stack.head l ∧
      ((btLfpoolStats σ.state).1 + l.length) % 2 ^ 64 = (btLfpoolStats σ.state).2 % 2 ^ 64 := by
  have hinv : Counted H σ :=
    run_induction (I := Counted H) (fun σ m σ' h hm hstep => h.step hm hstep)
      (counted_init H next) hcurrent hrun
  obtain ⟨l, hchain, hparts⟩ := hinv.inv.sound.length_add_outstanding
  refine ⟨l, hchain, ?_⟩
  have hbooks := hinv.books
  simp only [Epilogue.Books, hquiet.done, owes, Finset.sum_const_zero, add_zero, Int.ModEq]
    at hbooks
  simp only [btLfpoolStats]
  omega

/-- A bulk free of three objects, and the alloc of one of them, which is passed on and freed. -/
def freedByAnother : List (Move Bool ℕ) :=
  .call (.btLfpoolBulkFree true [1, 2, 3]) :: List.replicate 6 (.call (.go true)) ++
    .call (.btLfpoolAlloc false) :: List.replicate 4 (.call (.go false)) ++
    .call (.btLfpoolAlloc false) :: List.replicate 4 (.call (.go false)) ++
    .pass false true 1 :: .call (.btLfpoolFree true 1) :: List.replicate 4 (.call (.go true))

/-- The state after `LockfreePool.freedByAnother`. -/
def twoInPool : Shared Bool ℕ Pending Counters :=
  (run countedStep (counted threeObjects fun _ => none) freedByAnother).get (by decide +kernel)

theorem run_freedByAnother :
    run countedStep (counted threeObjects fun _ => none) freedByAnother = some twoInPool :=
  (Option.some_get _).symm

/-- The hypotheses of `LockfreePool.stats_difference_is_size` hold of the run
`LockfreePool.freedByAnother`, which ends with two allocs, four frees and two objects in the
pool. -/
theorem stats_difference_freed_by_another :
    btLfpoolStats twoInPool.state = (2, 4) ∧
    ∃ l, Chain twoInPool.stack.next twoInPool.stack.head l ∧
      ((btLfpoolStats twoInPool.state).1 + l.length) % 2 ^ 64 =
        (btLfpoolStats twoInPool.state).2 % 2 ^ 64 :=
  ⟨by decide +kernel, stats_difference_is_size threeObjects (fun _ => none) freedByAnother
    (by decide +kernel) run_freedByAnother ⟨by decide +kernel, by decide +kernel⟩⟩

/-! ### Progress -/

/-- The move is a step of a call. -/
def Move.isStep : Move κ α → Bool
  | .call (.go _) => true
  | .call (.btLfpoolAlloc _) | .call (.btLfpoolFree _ _) | .call (.btLfpoolBulkFree _ _)
  | .call (.write _ _ _) | .pass _ _ _ => false

/-- The move begins a call. -/
def Move.isCall : Move κ α → Bool
  | .call (.btLfpoolAlloc _) | .call (.btLfpoolFree _ _) | .call (.btLfpoolBulkFree _ _) => true
  | .call (.go _) | .call (.write _ _ _) | .pass _ _ _ => false

/-- The links that a bulk free writes before it loads the head. -/
def Move.links : Move κ α → ℕ
  | .call (.btLfpoolBulkFree _ ptrs) => ptrs.length - 1
  | .call (.btLfpoolAlloc _) | .call (.btLfpoolFree _ _) | .call (.go _) | .call (.write _ _ _)
  | .pass _ _ _ => 0

theorem counting_ends : counting.Ends (fun _ => 1) 1 where
  tick r c := by cases r <;> exact le_rfl
  afterPop := le_rfl
  afterPush _ := le_rfl

/-- The moves are counted as the acts on the pool. -/
theorem tallies : Tallies Call.act Move.isStep Move.isCall (Move.links : Move κ α → ℕ) where
  of_none m hd := by
    cases m with
    | pass => rfl
    | call c =>
        cases c with
        | go => cases hd
        | btLfpoolAlloc | btLfpoolFree | btLfpoolBulkFree | write => rfl
  of_some m d hd := by
    cases m with
    | pass =>
        cases hd
        exact ⟨rfl, rfl, rfl⟩
    | call c =>
        cases c with
        | btLfpoolAlloc | btLfpoolFree | write | go =>
            cases hd
            exact ⟨rfl, rfl, rfl⟩
        | btLfpoolBulkFree k ptrs =>
            cases ptrs with
            | nil => cases hd
            | cons first rest =>
                cases hd
                exact ⟨rfl, rfl, rfl⟩

/-- **The pool is lock-free**: in every interleaving, `n` threads together take at most `3 * n + 1`
steps for each call that they begin, retries and counter updates included, and one for each link
inside of a bulk free; and a thread inside of a call can always take its next step. -/
theorem steps_bounded_by_calls_and_links [Fintype κ] [DecidableEq κ] [DecidableEq α]
    (H : Holdings κ α) (next : α → Option α) (moves : List (Move κ α))
    {σ : Shared κ α Pending Counters} (hrun : run countedStep (counted H next) moves = some σ) :
    moves.countP Move.isStep ≤
        (3 * Fintype.card κ + 1) * moves.countP Move.isCall + (moves.map Move.links).sum ∧
      ∀ k, Busy σ k → ∃ σ', countedStep σ (.call (.go k)) = some σ' := by
  have hquiet : Quiet (counted H next) := ⟨fun _ => rfl, fun _ => rfl⟩
  exact ⟨tallies.steps_le counting_ends hquiet hrun,
    fun k hk => counting.exists_stepBy false rfl hk⟩

/-- The hypothesis of `LockfreePool.steps_bounded_by_calls_and_links` holds of the run
`LockfreePool.freedByAnother`: the four calls take 18 steps, and may take 30. -/
theorem steps_bounded_with_bulk_free :
    freedByAnother.countP Move.isStep = 18 ∧ freedByAnother.countP Move.isCall = 4 ∧
      freedByAnother.countP Move.isStep ≤
        (3 * Fintype.card Bool + 1) * freedByAnother.countP Move.isCall +
          (freedByAnother.map Move.links).sum :=
  ⟨by decide, by decide, (steps_bounded_by_calls_and_links threeObjects (fun _ => none)
    freedByAnother run_freedByAnother).1⟩

end LockfreePool
