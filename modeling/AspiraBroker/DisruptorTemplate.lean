/-
**The disruptor template, with its consumers.**

`Disruptor<T, N>` is the C++ variant of the ring.  Its `claim` also looks at the entry of
`committed` for the wrap point, but does nothing with the answer: it never finds the ring full, and
gives up only if another producer has moved the cursor.  So the ring has no back pressure, neither
from slow producers nor from slow consumers.  A consumer asks `is_committed` for the number it waits
for, and if so reads the slot with `get` and goes on to the next number.

Two things can spoil what a consumer reads: a producer of an earlier lap that has not written its
slot yet, and a producer of a later lap that has.  This module shows that nothing else can.  If
every claim finds that the earlier numbers of its slot are finished, and no number is read after its
slot was claimed again, then each consumer gets exactly the published items, all of them, in the
order of their claims: however many producers and consumers there are, and however they interleave.
The number `SIZE_MAX` marks an entry that was never committed, so the numbers have to stay below it.

`publish` returns `false` on contention alone, and the contention is bounded: among `n` producers
there are at most `n - 1` failures for each success.

Main definitions:

* `DisruptorTemplate.Sys`, `DisruptorTemplate.step` — producers and consumers, one atomic step at a
  time, with the log of the claimed items, which no step reads;
* `DisruptorTemplate.ClaimsFinished`, `DisruptorTemplate.ReadsInTime` — the two conditions;
* `DisruptorTemplate.Ring` — the invariant.

Main results:

* `DisruptorTemplate.consumers_get_the_log` — **every consumer gets the published items, in order**;
* `DisruptorTemplate.failures_bounded` — **at most `n - 1` failures for each success**.
-/

import AspiraBroker.AmortisedRuns
import AspiraBroker.Disruptor

set_option relaxedAutoImplicit false
set_option autoImplicit false

namespace DisruptorTemplate

open Transition

universe u v w

/-! ### The machine -/

/-- `INITIAL_SEQ`, and what a failed claim returns: the `(size_t)(-1)` of the macros. -/
def sizeMax : ℕ := Disruptor.sizeMax.toNat

theorem sizeMax_eq : sizeMax = 2 ^ 64 - 1 := Disruptor.toNat_sizeMax

/-- `seq & mask_`, for `N` the power `k` of two. -/
def slot (k : Fin 64) (seq : ℕ) : ℕ := Ring.masked k.val seq

/-- The slot whose entry a claim looks at: that of `next - N`. -/
def wrapSlot (k : Fin 64) (seq : ℕ) : ℕ := slot k ((seq + 1 + (2 ^ 64 - 2 ^ k.val)) % 2 ^ 64)

/-- Where a producer stands in `publish`. -/
inductive Pc (α : Type w)
  | idle
  /-- about to load the cursor -/
  | load (item : α)
  /-- about to load the entry of the wrap point, for the first test and for the second -/
  | first (item : α) (seq : ℕ)
  | second (item : α) (seq : ℕ)
  | swap (item : α) (seq : ℕ)
  | write (item : α) (seq : ℕ)
  | commit (seq : ℕ)
  deriving DecidableEq

/-- The number that is claimed and not committed. -/
def Pc.holding {α : Type w} : Pc α → Option ℕ
  | .write _ seq | .commit seq => some seq
  | .idle | .load _ | .first _ _ | .second _ _ | .swap _ _ => none

/-- The cursor that the producer has loaded. -/
def Pc.loaded {α : Type w} : Pc α → Option ℕ
  | .first _ seq | .second _ seq | .swap _ seq => some seq
  | .idle | .load _ | .write _ _ | .commit _ => none

/-- The producer has loaded a cursor that is not the cursor. -/
def Pc.stale {α : Type w} (cursor : ℕ) (pc : Pc α) : ℕ :=
  if pc.loaded = none ∨ pc.loaded = some cursor then 0 else 1

theorem Pc.stale_le_one {α : Type w} {cursor : ℕ} {pc : Pc α} : pc.stale cursor ≤ 1 := by
  unfold Pc.stale
  split <;> decide

theorem Pc.stale_of_loaded {α : Type w} {cursor : ℕ} {pc : Pc α} (h : pc.loaded = none) :
    pc.stale cursor = 0 := by
  simp [Pc.stale, h]

/-- A consumer: the number it waits for, whether `is_committed` has said yes, and what it has
got. -/
structure Reader (α : Type w) where
  next : ℕ
  tested : Bool
  got : List (Option α)

/-- The ring, the producers and the consumers.  The log holds the claimed items, in the order of
their numbers. -/
structure Sys (ι : Type u) (ζ : Type v) (α : Type w) where
  cursor : ℕ
  committed : ℕ → ℕ
  buffer : ℕ → Option α
  pc : ι → Pc α
  reader : ζ → Reader α
  log : List α

/-- A producer begins to publish an item or takes its next step; a consumer calls `is_committed` or
`get`. -/
inductive Act (ι : Type u) (ζ : Type v) (α : Type w)
  | publish (p : ι) (item : α)
  | move (p : ι)
  | isCommitted (c : ζ)
  | get (c : ζ)

/-- The constructor of the template. -/
def start (ι : Type u) (ζ : Type v) (α : Type w) : Sys ι ζ α :=
  ⟨0, fun _ => sizeMax, fun _ => none, fun _ => .idle, fun _ => ⟨0, false, []⟩, []⟩

section Machine

variable {ι : Type u} {ζ : Type v} {α : Type w} [DecidableEq ι] [DecidableEq ζ]

/-- The producer moves on and the ring stays as it is. -/
def Sys.goto (s : Sys ι ζ α) (p : ι) (pc : Pc α) : Sys ι ζ α :=
  { s with pc := Function.update s.pc p pc }

/-- The producer claims the number under the cursor.  A claim of the number `SIZE_MAX` looks like a
failed one to `publish`. -/
def Sys.claim (s : Sys ι ζ α) (p : ι) (item : α) : Sys ι ζ α :=
  { s with
    cursor := (s.cursor + 1) % 2 ^ 64
    log := s.log ++ [item]
    pc := Function.update s.pc p (if s.cursor = sizeMax then .idle else .write item s.cursor) }

/-- The producer writes its item. -/
def Sys.write (k : Fin 64) (s : Sys ι ζ α) (p : ι) (item : α) (seq : ℕ) : Sys ι ζ α :=
  { s with
    buffer := Function.update s.buffer (slot k seq) (some item)
    pc := Function.update s.pc p (.commit seq) }

/-- `commit`. -/
def Sys.commit (k : Fin 64) (s : Sys ι ζ α) (p : ι) (seq : ℕ) : Sys ι ζ α :=
  { s with
    committed := Function.update s.committed (slot k seq) seq
    pc := Function.update s.pc p .idle }

/-- The consumer calls `is_committed` for the number it waits for. -/
def Reader.test (k : Fin 64) (committed : ℕ → ℕ) (r : Reader α) : Reader α :=
  { r with tested := decide (committed (slot k r.next) = r.next) }

/-- The consumer calls `get`, and goes on to the next number. -/
def Reader.get (k : Fin 64) (buffer : ℕ → Option α) (r : Reader α) : Reader α :=
  ⟨r.next + 1, false, r.got ++ [buffer (slot k r.next)]⟩

/-- The consumer moves on. -/
def Sys.turn (s : Sys ι ζ α) (c : ζ) (r : Reader α) : Sys ι ζ α :=
  { s with reader := Function.update s.reader c r }

/-- One step. -/
def step (k : Fin 64) (s : Sys ι ζ α) : Act ι ζ α → Option (Sys ι ζ α)
  | .publish p item =>
      match s.pc p with
      | .idle => some (s.goto p (.load item))
      | _ => none
  | .move p =>
      match s.pc p with
      | .idle => none
      | .load item => some (s.goto p (.first item s.cursor))
      -- the branch that the tests guard is empty
      | .first item seq =>
          if s.committed (wrapSlot k seq) ≠ sizeMax then some (s.goto p (.second item seq))
          else some (s.goto p (.swap item seq))
      | .second item seq => some (s.goto p (.swap item seq))
      | .swap item seq => if s.cursor = seq then some (s.claim p item) else some (s.goto p .idle)
      | .write item seq => some (s.write k p item seq)
      | .commit seq => some (s.commit k p seq)
  | .isCommitted c => some (s.turn c ((s.reader c).test k s.committed))
  | .get c =>
      if (s.reader c).tested then some (s.turn c ((s.reader c).get k s.buffer)) else none

omit [DecidableEq ι] [DecidableEq ζ] in
/-- The number that the step claims. -/
def claims (s : Sys ι ζ α) : Act ι ζ α → Option ℕ
  | .move p =>
      match s.pc p with
      | .swap _ seq => if s.cursor = seq then some seq else none
      | .idle | .load _ | .first _ _ | .second _ _ | .write _ _ | .commit _ => none
  | .publish _ _ | .isCommitted _ | .get _ => none

omit [DecidableEq ι] [DecidableEq ζ] in
/-- The step is a claim that fails, so that `publish` returns `false`. -/
def fails (s : Sys ι ζ α) : Act ι ζ α → ℕ
  | .move p =>
      match s.pc p with
      | .swap _ seq => if s.cursor = seq then 0 else 1
      | .idle | .load _ | .first _ _ | .second _ _ | .write _ _ | .commit _ => 0
  | .publish _ _ | .isCommitted _ | .get _ => 0

omit [DecidableEq ι] [DecidableEq ζ] in
/-- A claim finds the earlier numbers of its slot finished, and does not bring the cursor to
`SIZE_MAX`. -/
def ClaimsFinished (k : Fin 64) (s : Sys ι ζ α) (a : Act ι ζ α) : Prop :=
  ∀ seq ∈ claims s a, seq + 1 < sizeMax ∧ ∀ p, ∀ c ∈ (s.pc p).holding, slot k c ≠ slot k seq

instance [Fintype ι] (k : Fin 64) (s : Sys ι ζ α) (a : Act ι ζ α) :
    Decidable (ClaimsFinished k s a) :=
  inferInstanceAs (Decidable (∀ seq ∈ claims s a, _ ∧ ∀ p, ∀ c ∈ (s.pc p).holding, _))

omit [DecidableEq ι] [DecidableEq ζ] in
/-- A number is read before its slot is claimed again. -/
def ReadsInTime (k : Fin 64) (s : Sys ι ζ α) : Act ι ζ α → Prop
  | .get c => s.cursor ≤ (s.reader c).next + 2 ^ k.val
  | .publish _ _ | .move _ | .isCommitted _ => True

instance (k : Fin 64) (s : Sys ι ζ α) : ∀ a : Act ι ζ α, Decidable (ReadsInTime k s a)
  | .get c => inferInstanceAs (Decidable (s.cursor ≤ (s.reader c).next + 2 ^ k.val))
  | .publish _ _ | .move _ | .isCommitted _ => isTrue trivial

/-! ### What a step does -/

/-- A step moves a producer or a consumer, claims, writes or commits. -/
inductive Steps (k : Fin 64) (s : Sys ι ζ α) : Act ι ζ α → Sys ι ζ α → Prop
  | quiet {a : Act ι ζ α} (p : ι) (pc : Pc α) (hnone : (s.pc p).holding = none)
      (hpc : pc.holding = none) (hclaims : claims s a = none)
      (hstale : fails s a + pc.stale s.cursor ≤ (s.pc p).stale s.cursor) :
      Steps k s a (s.goto p pc)
  | claim (p : ι) (item : α) (hpc : s.pc p = .swap item s.cursor) :
      Steps k s (.move p) (s.claim p item)
  | write (p : ι) (item : α) (seq : ℕ) (hpc : s.pc p = .write item seq) :
      Steps k s (.move p) (s.write k p item seq)
  | commit (p : ι) (seq : ℕ) (hpc : s.pc p = .commit seq) :
      Steps k s (.move p) (s.commit k p seq)
  | test (c : ζ) : Steps k s (.isCommitted c) (s.turn c ((s.reader c).test k s.committed))
  | get (c : ζ) (htested : (s.reader c).tested = true) :
      Steps k s (.get c) (s.turn c ((s.reader c).get k s.buffer))

theorem steps_of_step {k : Fin 64} {s s' : Sys ι ζ α} {a : Act ι ζ α}
    (h : step k s a = some s') : Steps k s a s' := by
  cases a with
  | publish p item =>
      simp only [step] at h
      split at h
      · next hpc =>
          refine Option.some.inj h ▸ .quiet p _ (by rw [hpc]; rfl) rfl rfl ?_
          simp [fails, hpc, Pc.stale, Pc.loaded]
      · cases h
  | move p =>
      -- a step of a claim, from the place `pc` on
      have claiming : ∀ {pc pc' : Pc α}, s.pc p = pc → pc.holding = none → pc'.holding = none →
          claims s (.move p) = none →
          fails s (.move p) + pc'.stale s.cursor ≤ pc.stale s.cursor →
          Steps k s (.move p) (s.goto p pc') := by
        rintro pc pc' rfl hnone hpc hclaims hstale
        exact .quiet p pc' hnone hpc hclaims hstale
      simp only [step] at h
      split at h
      · cases h
      · next item hpc =>
          refine Option.some.inj h ▸ claiming hpc rfl rfl (by simp [claims, hpc]) ?_
          simp [fails, hpc, Pc.stale, Pc.loaded]
      · next item seq hpc =>
          split at h
          all_goals
            refine Option.some.inj h ▸ claiming hpc rfl rfl (by simp [claims, hpc]) ?_
            simp [fails, hpc, Pc.stale, Pc.loaded]
      · next item seq hpc =>
          refine Option.some.inj h ▸ claiming hpc rfl rfl (by simp [claims, hpc]) ?_
          simp [fails, hpc, Pc.stale, Pc.loaded]
      · next item seq hpc =>
          split at h
          · next hcur =>
              subst hcur
              exact Option.some.inj h ▸ .claim p item hpc
          · next hcur =>
              refine Option.some.inj h ▸ claiming hpc rfl rfl (by simp [claims, hpc, hcur]) ?_
              simp [fails, hpc, Pc.stale, Pc.loaded, hcur, Ne.symm hcur]
      · next item seq hpc => exact Option.some.inj h ▸ .write p item seq hpc
      · next seq hpc => exact Option.some.inj h ▸ .commit p seq hpc
  | isCommitted c => exact Option.some.inj h ▸ .test c
  | get c =>
      simp only [step, Option.ite_none_right_eq_some, Option.some.injEq] at h
      obtain ⟨htested, rfl⟩ := h
      exact .get c htested

end Machine

/-! ### The invariant -/

section Invariant

variable {ι : Type u} {ζ : Type v} {α : Type w} {k : Fin 64} {s s' : Sys ι ζ α}

/-- A consumer has the items up to the number it waits for.  If `is_committed` has said yes for that
number, it is still the one that is committed, unless its slot was claimed again. -/
structure Reader.Follows (k : Fin 64) (committed : ℕ → ℕ) (log : List α) (r : Reader α) : Prop where
  behind : r.next ≤ log.length
  got : r.got = (log.take r.next).map some
  tested : r.tested = true → r.next < log.length ∧
    (log.length ≤ r.next + 2 ^ k.val → committed (slot k r.next) = r.next)

/-- The last number of each slot is held by its producer, or is committed with its item in the
slot; and the consumers follow. -/
structure Ring (k : Fin 64) (s : Sys ι ζ α) : Prop where
  cursor : s.cursor = s.log.length
  range : s.log.length < sizeMax
  /-- a number is held by one producer, and its slot is not claimed again before it is committed -/
  held : ∀ p n, (s.pc p).holding = some n → n < s.log.length ∧ s.log.length ≤ n + 2 ^ k.val
  alone : ∀ p q n, (s.pc p).holding = some n → (s.pc q).holding = some n → p = q
  item : ∀ p x n, s.pc p = .write x n → s.log[n]? = some x
  written : ∀ p n, s.pc p = .commit n → s.buffer (slot k n) = s.log[n]?
  uncommitted : ∀ p n, (s.pc p).holding = some n → s.committed (slot k n) ≠ n
  settled : ∀ n, n < s.log.length → s.log.length ≤ n + 2 ^ k.val →
    (∃ p, (s.pc p).holding = some n) ∨
      (s.committed (slot k n) = n ∧ s.buffer (slot k n) = s.log[n]?)
  claimed : ∀ c, s.committed c < s.log.length ∨ s.committed c = sizeMax
  readers : ∀ c, (s.reader c).Follows k s.committed s.log

theorem ring_start (k : Fin 64) : Ring k (start ι ζ α) where
  cursor := rfl
  range := by change 0 < sizeMax; decide
  held _ _ h := by cases h
  alone _ _ _ h := by cases h
  item _ _ _ h := by cases h
  written _ _ h := by cases h
  uncommitted _ _ h := by cases h
  settled _ h := absurd h (Nat.not_lt_zero _)
  claimed _ := .inr rfl
  readers _ := ⟨le_rfl, rfl, fun h => by cases h⟩

/-- **What a consumer reads in time is the item of the number.** -/
theorem Ring.read (h : Ring k s) {c : ζ} (htested : (s.reader c).tested = true)
    (htime : s.cursor ≤ (s.reader c).next + 2 ^ k.val) :
    s.buffer (slot k (s.reader c).next) = s.log[(s.reader c).next]? := by
  rw [h.cursor] at htime
  obtain ⟨hlt, hcommitted⟩ := (h.readers c).tested htested
  rcases h.settled _ hlt htime with ⟨p, hp⟩ | ⟨-, hbuffer⟩
  · exact absurd (hcommitted htime) (h.uncommitted p _ hp)
  · exact hbuffer

section Producers

variable [DecidableEq ι]

/-- A producer that holds nothing moves to where it holds nothing. -/
theorem Ring.quiet (h : Ring k s) {p : ι} {pc : Pc α} (hnone : (s.pc p).holding = none)
    (hpc : pc.holding = none) : Ring k (s.goto p pc) := by
  -- the places of the producers that hold a number are the same
  have hhold : ∀ q, ((s.goto p pc).pc q).holding = (s.pc q).holding :=
    apply_update_eq Pc.holding (hpc.trans hnone.symm)
  have hplace : ∀ q x, (s.goto p pc).pc q = x → x.holding ≠ none → s.pc q = x := by
    intro q x hq hx
    rcases of_update (P := fun y => y = x) hq with ⟨-, rfl⟩ | ⟨-, hold⟩
    · exact absurd hpc hx
    · exact hold
  constructor
  case held => exact fun q n hq => h.held q n ((hhold q).symm.trans hq)
  case alone =>
    exact fun q r n hq hr => h.alone q r n ((hhold q).symm.trans hq) ((hhold r).symm.trans hr)
  case item => exact fun q x n hq => h.item q x n (hplace q _ hq (by simp [Pc.holding]))
  case written => exact fun q n hq => h.written q n (hplace q _ hq (by simp [Pc.holding]))
  case uncommitted => exact fun q n hq => h.uncommitted q n ((hhold q).symm.trans hq)
  case settled =>
    intro n hn hlap
    exact (h.settled n hn hlap).imp_left fun ⟨q, hq⟩ => ⟨q, (hhold q).trans hq⟩
  case cursor => exact h.cursor
  case range => exact h.range
  case claimed => exact h.claimed
  case readers => exact h.readers

/-- A claim that finds the earlier numbers of its slot finished. -/
theorem Ring.claim (h : Ring k s) {p : ι} {item : α} (hpc : s.pc p = .swap item s.cursor)
    (hmax : s.cursor + 1 < sizeMax)
    (hfree : ∀ q c, (s.pc q).holding = some c → slot k c ≠ slot k s.cursor) :
    Ring k (s.claim p item) := by
  have hlen : s.log.length + 1 < 2 ^ 64 - 1 := by rwa [← sizeMax_eq, ← h.cursor]
  have hpnone : (s.pc p).holding = none := by rw [hpc]; rfl
  have hnew : (s.claim p item).pc = Function.update s.pc p (.write item s.cursor) := by
    rw [Sys.claim, if_neg (Nat.lt_of_succ_lt hmax).ne]
  have hlength : (s.claim p item).log.length = s.log.length + 1 := by
    simp [Sys.claim]
  -- a producer holds the new number, or another one held what it holds before
  have hhold : ∀ q n, ((s.claim p item).pc q).holding = some n →
      (q = p ∧ n = s.log.length) ∨ (q ≠ p ∧ (s.pc q).holding = some n) := by
    intro q n hq
    rw [hnew] at hq
    rcases of_update (P := fun x => Pc.holding x = some n) hq with ⟨rfl, hmine⟩ | ⟨hne, hold⟩
    · exact .inl ⟨rfl, (Option.some.inj hmine).symm.trans h.cursor⟩
    · exact .inr ⟨hne, hold⟩
  have hlog : ∀ n, n < s.log.length → (s.claim p item).log[n]? = s.log[n]? := fun n hn =>
    List.getElem?_append_left hn
  constructor
  case cursor =>
    rw [hlength, ← h.cursor]
    refine Nat.mod_eq_of_lt ?_
    rw [h.cursor]
    omega
  case range =>
    rwa [hlength, sizeMax_eq]
  case held =>
    intro q n hq
    rw [hlength]
    rcases hhold q n hq with ⟨-, rfl⟩ | ⟨-, hold⟩
    · have := Nat.two_pow_pos k.val
      omega
    · obtain ⟨hlt, hlap⟩ := h.held q n hold
      -- otherwise the new number is a lap after the held one
      have hne : s.log.length ≠ n + 2 ^ k.val := by
        intro heq
        refine hfree q n hold ?_
        rw [h.cursor, heq]
        exact (Ring.masked_lap k.val n).symm
      omega
  case alone =>
    intro q r n hq hr
    rcases hhold q n hq with ⟨rfl, rfl⟩ | ⟨-, hq'⟩
    · rcases hhold r _ hr with ⟨rfl, -⟩ | ⟨-, hr'⟩
      · rfl
      · exact absurd (h.held r _ hr').1 (Nat.lt_irrefl _)
    · rcases hhold r n hr with ⟨-, rfl⟩ | ⟨-, hr'⟩
      · exact absurd (h.held q _ hq').1 (Nat.lt_irrefl _)
      · exact h.alone q r n hq' hr'
  case item =>
    intro q x n hq
    rw [hnew] at hq
    rcases of_update (P := fun y => y = Pc.write x n) hq with ⟨rfl, hmine⟩ | ⟨hne, hold⟩
    · cases hmine
      simp [Sys.claim, h.cursor]
    · rw [hlog n (h.held q n (by rw [hold]; rfl)).1]
      exact h.item q x n hold
  case written =>
    intro q n hq
    rw [hnew] at hq
    rcases of_update (P := fun y => y = Pc.commit n) hq with ⟨rfl, hmine⟩ | ⟨hne, hold⟩
    · cases hmine
    · rw [hlog n (h.held q n (by rw [hold]; rfl)).1]
      exact h.written q n hold
  case uncommitted =>
    intro q n hq
    rcases hhold q n hq with ⟨-, rfl⟩ | ⟨-, hold⟩
    · change s.committed (slot k s.log.length) ≠ s.log.length
      rcases h.claimed (slot k s.log.length) with hlt | heq
      · exact hlt.ne
      · exact fun hsame => absurd hlen (by rw [sizeMax_eq] at heq; omega)
    · exact h.uncommitted q n hold
  case settled =>
    intro n hn hlap
    rw [hlength] at hn hlap
    rcases Nat.lt_or_ge n s.log.length with hlt | hge
    · rw [hlog n hlt]
      refine (h.settled n hlt (by omega)).imp_left fun ⟨q, hq⟩ => ⟨q, ?_⟩
      have hne : q ≠ p := by
        rintro rfl
        rw [hpnone] at hq
        cases hq
      rw [hnew, Function.update_of_ne hne]
      exact hq
    · have heq : n = s.log.length := by omega
      refine .inl ⟨p, ?_⟩
      rw [hnew, Function.update_self, heq, ← h.cursor]
      rfl
  case claimed =>
    intro c
    rw [hlength]
    exact (h.claimed c).imp_left Nat.lt_succ_of_lt
  case readers =>
    intro c
    obtain ⟨hbehind, hgot, htested⟩ := h.readers c
    constructor
    case behind => exact hlength ▸ Nat.le_succ_of_le hbehind
    case got =>
      change (s.reader c).got = ((s.log ++ [item]).take (s.reader c).next).map some
      rw [List.take_append_of_le_length hbehind]
      exact hgot
    case tested =>
      intro ht
      rw [hlength]
      exact ⟨Nat.lt_succ_of_lt (htested ht).1, fun hlap =>
        (htested ht).2 (Nat.le_of_succ_le hlap)⟩

/-- A producer writes the slot of the number it holds; the last numbers of the other slots keep
theirs. -/
theorem Ring.write (h : Ring k s) {p : ι} {item : α} {seq : ℕ} (hpc : s.pc p = .write item seq) :
    Ring k (s.write k p item seq) := by
  have hseq : (s.pc p).holding = some seq := by rw [hpc]; rfl
  have hmine := h.held p seq hseq
  have hhold : ∀ q, ((s.write k p item seq).pc q).holding = (s.pc q).holding :=
    apply_update_eq Pc.holding (hseq ▸ rfl)
  have hother : ∀ n, n < s.log.length → s.log.length ≤ n + 2 ^ k.val → n ≠ seq →
      (s.write k p item seq).buffer (slot k n) = s.buffer (slot k n) := by
    intro n hn hlap hne
    refine Function.update_of_ne (fun hslot => hne ?_) _ _
    exact Ring.eq_of_masked_eq hslot hn hmine.1 hlap hmine.2
  constructor
  case held => exact fun q n hq => h.held q n ((hhold q).symm.trans hq)
  case alone =>
    exact fun q r n hq hr => h.alone q r n ((hhold q).symm.trans hq) ((hhold r).symm.trans hr)
  case item =>
    intro q x n hq
    rcases of_update (P := fun y => y = Pc.write x n) hq with ⟨-, hnew⟩ | ⟨-, hold⟩
    · cases hnew
    · exact h.item q x n hold
  case written =>
    intro q n hq
    rcases of_update (P := fun y => y = Pc.commit n) hq with ⟨-, hnew⟩ | ⟨hne, hold⟩
    · cases hnew
      exact (Function.update_self _ _ _).trans (h.item p item _ hpc).symm
    · have hheld : (s.pc q).holding = some n := by rw [hold]; rfl
      have hlap := h.held q n hheld
      rw [hother n hlap.1 hlap.2 fun heq => hne (h.alone q p n hheld (heq ▸ hseq))]
      exact h.written q n hold
  case uncommitted => exact fun q n hq => h.uncommitted q n ((hhold q).symm.trans hq)
  case settled =>
    intro n hn hlap
    rcases eq_or_ne n seq with rfl | hne
    · exact .inl ⟨p, (hhold p).trans hseq⟩
    · rw [hother n hn hlap hne]
      exact (h.settled n hn hlap).imp_left fun ⟨q, hq⟩ => ⟨q, (hhold q).trans hq⟩
  case cursor => exact h.cursor
  case range => exact h.range
  case claimed => exact h.claimed
  case readers => exact h.readers

/-- A producer commits the number it holds. -/
theorem Ring.commit (h : Ring k s) {p : ι} {seq : ℕ} (hpc : s.pc p = .commit seq) :
    Ring k (s.commit k p seq) := by
  have hseq : (s.pc p).holding = some seq := by rw [hpc]; rfl
  have hmine := h.held p seq hseq
  have hhold : ∀ q n, ((s.commit k p seq).pc q).holding = some n →
      q ≠ p ∧ (s.pc q).holding = some n := by
    intro q n hq
    rcases of_update (P := fun x => Pc.holding x = some n) hq with ⟨-, hnew⟩ | hold
    · cases hnew
    · exact hold
  have hplace : ∀ q x, (s.commit k p seq).pc q = x → x ≠ .idle → s.pc q = x := by
    intro q x hq hx
    rcases of_update (P := fun y => y = x) hq with ⟨-, rfl⟩ | ⟨-, hold⟩
    · exact absurd rfl hx
    · exact hold
  have hother : ∀ n, n < s.log.length → s.log.length ≤ n + 2 ^ k.val → n ≠ seq →
      (s.commit k p seq).committed (slot k n) = s.committed (slot k n) := by
    intro n hn hlap hne
    refine Function.update_of_ne (fun hslot => hne ?_) _ _
    exact Ring.eq_of_masked_eq hslot hn hmine.1 hlap hmine.2
  have hself : (s.commit k p seq).committed (slot k seq) = seq := Function.update_self _ _ _
  constructor
  case held => exact fun q n hq => h.held q n (hhold q n hq).2
  case alone => exact fun q r n hq hr => h.alone q r n (hhold q n hq).2 (hhold r n hr).2
  case item => exact fun q x n hq => h.item q x n (hplace q _ hq (by simp))
  case written => exact fun q n hq => h.written q n (hplace q _ hq (by simp))
  case uncommitted =>
    intro q n hq
    obtain ⟨hne, hold⟩ := hhold q n hq
    have hlap := h.held q n hold
    rw [hother n hlap.1 hlap.2 fun heq => hne (h.alone q p n hold (heq ▸ hseq))]
    exact h.uncommitted q n hold
  case settled =>
    intro n hn hlap
    rcases eq_or_ne n seq with rfl | hne
    · exact .inr ⟨hself, h.written p n hpc⟩
    · rw [hother n hn hlap hne]
      refine (h.settled n hn hlap).imp_left fun ⟨q, hq⟩ => ⟨q, ?_⟩
      have hqp : q ≠ p := by
        rintro rfl
        exact hne (Option.some.inj (hq.symm.trans hseq))
      exact (congrArg Pc.holding (Function.update_of_ne hqp _ _)).trans hq
  case claimed =>
    intro c
    rcases eq_or_ne c (slot k seq) with rfl | hne
    · rw [hself]
      exact .inl hmine.1
    · have hold : (s.commit k p seq).committed c = s.committed c := Function.update_of_ne hne _ _
      rw [hold]
      exact h.claimed c
  case readers =>
    intro c
    obtain ⟨hbehind, hgot, htested⟩ := h.readers c
    refine ⟨hbehind, hgot, fun ht => ⟨(htested ht).1, fun hlap => ?_⟩⟩
    change (s.commit k p seq).committed (slot k (s.reader c).next) = (s.reader c).next
    rcases eq_or_ne (s.reader c).next seq with heq | hne
    · rw [heq, hself]
    · rw [hother _ (htested ht).1 hlap hne]
      exact (htested ht).2 hlap
  case cursor => exact h.cursor
  case range => exact h.range

end Producers

section Consumers

/-- The answer of `is_committed`: a number that is committed was claimed. -/
theorem Ring.follows_test (h : Ring k s) (c : ζ) :
    ((s.reader c).test k s.committed).Follows k s.committed s.log := by
  obtain ⟨hbehind, hgot, -⟩ := h.readers c
  refine ⟨hbehind, hgot, fun ht => ?_⟩
  have hcommitted : s.committed (slot k (s.reader c).next) = (s.reader c).next :=
    of_decide_eq_true ht
  refine ⟨?_, fun _ => hcommitted⟩
  rcases h.claimed (slot k (s.reader c).next) with hlt | heq
  · exact hcommitted ▸ hlt
  · exact absurd (hcommitted.symm.trans heq) (hbehind.trans_lt h.range).ne

/-- What `get` returns in time is the next item of the log. -/
theorem Ring.follows_get (h : Ring k s) {c : ζ} (htested : (s.reader c).tested = true)
    (htime : s.cursor ≤ (s.reader c).next + 2 ^ k.val) :
    ((s.reader c).get k s.buffer).Follows k s.committed s.log := by
  have hlt := ((h.readers c).tested htested).1
  refine ⟨hlt, ?_, fun ht => by cases ht⟩
  change (s.reader c).got ++ [s.buffer (slot k (s.reader c).next)] = _
  rw [(h.readers c).got, h.read htested htime, List.getElem?_eq_getElem hlt]
  change _ = (s.log.take ((s.reader c).next + 1)).map some
  rw [List.take_succ_eq_append_getElem hlt, List.map_append]
  rfl

variable [DecidableEq ζ]

/-- A consumer moves on, and still follows. -/
theorem Ring.turn (h : Ring k s) {c : ζ} {r : Reader α} (hr : r.Follows k s.committed s.log) :
    Ring k (s.turn c r) :=
  { h with
    readers := (Function.forall_update_iff s.reader
      fun _ r => r.Follows k s.committed s.log).2 ⟨hr, fun d _ => h.readers d⟩ }

end Consumers

/-- **One step keeps the invariant.** -/
theorem Ring.step [DecidableEq ι] [DecidableEq ζ] {a : Act ι ζ α} (h : Ring k s)
    (hclaims : ClaimsFinished k s a) (hreads : ReadsInTime k s a)
    (hstep : DisruptorTemplate.step k s a = some s') : Ring k s' := by
  cases steps_of_step hstep with
  | quiet p pc hnone hpc hclaims hstale => exact h.quiet hnone hpc
  | claim p item hpc =>
      obtain ⟨hmax, hfree⟩ := hclaims s.cursor (by simp [claims, hpc])
      exact h.claim hpc hmax hfree
  | write p item seq hpc => exact h.write hpc
  | commit p seq hpc => exact h.commit hpc
  | test c => exact h.turn (h.follows_test c)
  | get c htested => exact h.turn (h.follows_get htested hreads)

end Invariant

/-! ### Whole runs -/

section Runs

variable {ι : Type u} {ζ : Type v} {α : Type w} [DecidableEq ι] [DecidableEq ζ]

/-- **Every consumer gets the published items, in order**: after any interleaving of any number of
producers and consumers, what a consumer has got are the items of the numbers below the one it waits
for.  Every claim has to find the earlier numbers of its slot finished and to leave the cursor below
`SIZE_MAX`, and every number has to be read before its slot is claimed again. -/
theorem consumers_get_the_log (k : Fin 64) (acts : List (Act ι ζ α)) {s : Sys ι ζ α}
    (hclaims : Along (step k) (ClaimsFinished k) (start ι ζ α) acts)
    (hreads : Along (step k) (ReadsInTime k) (start ι ζ α) acts)
    (hrun : run (step k) (start ι ζ α) acts = some s) (c : ζ) :
    (s.reader c).next ≤ s.log.length ∧
      (s.reader c).got = (s.log.take (s.reader c).next).map some := by
  have hinv : Ring k s :=
    run_induction (I := Ring k) (G := fun s a => ClaimsFinished k s a ∧ ReadsInTime k s a)
      (fun s a s' h hG hstep => h.step hG.1 hG.2 hstep) (ring_start k)
      (along_and_iff.2 ⟨hclaims, hreads⟩) hrun
  exact ⟨(hinv.readers c).behind, (hinv.readers c).got⟩

/-- Two producers and two consumers share a ring of two slots.  Both producers load the cursor, and
the second one to swap fails and tries again; the consumers poll and read at different times. -/
def contendedRun : List (Act Bool Bool ℕ) :=
  [.publish false 10, .publish true 20, .move false, .move true, .move false, .move true,
    .move true, .move false, .isCommitted false, .move true, .move true, .publish false 30,
    .isCommitted false, .move false, .get false, .move false, .move false, .move false,
    .isCommitted true, .get true, .move false, .move false, .isCommitted true, .get true]

/-- On a ring of two slots it goes through. -/
theorem exists_run_contendedRun :
    ∃ s, run (step 1) (start Bool Bool ℕ) contendedRun = some s ∧ s.log = [20, 30] ∧
      (s.reader true).next = 2 := by
  have hend : (run (step 1) (start Bool Bool ℕ) contendedRun).map
      (fun s => (s.log, (s.reader true).next)) = some ([20, 30], 2) := by decide +kernel
  obtain ⟨s, hrun, hs⟩ := Option.map_eq_some_iff.1 hend
  exact ⟨s, hrun, (Prod.mk.inj hs).1, (Prod.mk.inj hs).2⟩

/-- The hypotheses of `DisruptorTemplate.consumers_get_the_log` hold of the run
`DisruptorTemplate.contendedRun`, after which one consumer has got both items. -/
theorem consumers_get_the_log_after_contention :
    ∃ s, run (step 1) (start Bool Bool ℕ) contendedRun = some s ∧ s.log = [20, 30] ∧
      (s.reader true).next = 2 ∧
      (s.reader true).got = (s.log.take (s.reader true).next).map some := by
  obtain ⟨s, hrun, hlog, hnext⟩ := exists_run_contendedRun
  exact ⟨s, hrun, hlog, hnext, (consumers_get_the_log 1 contendedRun (by decide +kernel)
    (by decide +kernel) hrun true).2⟩

end Runs

/-! ### Contention -/

section Contention

variable {ι : Type u} {ζ : Type v} {α : Type w}

/-- The step is a claim that succeeds. -/
def succeeds (s : Sys ι ζ α) (a : Act ι ζ α) : ℕ := (claims s a).toList.length

variable [DecidableEq ι] [DecidableEq ζ] {k : Fin 64} {s s' : Sys ι ζ α} {a : Act ι ζ α}

/-- The log counts the claims. -/
theorem length_log (h : step k s a = some s') : s'.log.length = s.log.length + succeeds s a := by
  cases steps_of_step h with
  | quiet p pc hnone hpc hclaims hstale => simp [succeeds, hclaims, Sys.goto]
  | claim p item hpc => simp [succeeds, claims, hpc, Sys.claim]
  | write p item seq hpc => simp [succeeds, claims, hpc, Sys.write]
  | commit p seq hpc => simp [succeeds, claims, hpc, Sys.commit]
  | test c => simp [succeeds, claims, Sys.turn]
  | get c htested => simp [succeeds, claims, Sys.turn]

variable [Fintype ι]

omit [DecidableEq ζ] in
/-- A producer that moves on does not change what the others have loaded. -/
theorem sum_stale {pc : Pc α} {p : ι} (cursor : ℕ) (h : s'.pc = Function.update s.pc p pc) :
    ∑ q, (s'.pc q).stale cursor + (s.pc p).stale cursor =
      ∑ q, (s.pc q).stale cursor + pc.stale cursor := by
  have hsum := sum_add_eq_of_others (f := fun q => (s.pc q).stale cursor)
    (g := fun q => (s'.pc q).stale cursor) (k := p)
    fun q hq => by rw [h, Function.update_of_ne hq]
  simpa [h] using hsum

/-- A failure uses up a stale load, and only a success makes loads stale. -/
theorem fails_add_stale (h : step k s a = some s') :
    fails s a + ∑ p, (s'.pc p).stale s'.cursor ≤
      ∑ p, (s.pc p).stale s.cursor + (Fintype.card ι - 1) * succeeds s a := by
  cases steps_of_step h with
  | quiet p pc hnone hpc hclaims hstale =>
      have hsum := sum_stale s.cursor (show (s.goto p pc).pc = _ from rfl)
      change fails s a + ∑ q, ((s.goto p pc).pc q).stale s.cursor ≤ _
      omega
  | claim p item hpc =>
      have hp : ((s.claim p item).pc p).stale (s.claim p item).cursor = 0 := by
        refine Pc.stale_of_loaded ?_
        simp only [Sys.claim, Function.update_self]
        split <;> rfl
      have hothers := sum_le_card_sub_one (g := fun q =>
        ((s.claim p item).pc q).stale (s.claim p item).cursor) hp fun q => Pc.stale_le_one
      have hfails : fails s (.move p) = 0 := by simp [fails, hpc]
      have hone : succeeds s (.move p) = 1 := by simp [succeeds, claims, hpc]
      rw [hfails, hone]
      omega
  | write p item seq hpc =>
      have hsum := sum_stale s.cursor (show (s.write k p item seq).pc = _ from rfl)
      have hold : (s.pc p).stale s.cursor = 0 := Pc.stale_of_loaded (by rw [hpc]; rfl)
      have hnew : (Pc.commit seq : Pc α).stale s.cursor = 0 := Pc.stale_of_loaded rfl
      have hfails : fails s (.move p) = 0 := by simp [fails, hpc]
      change fails s (.move p) + ∑ q, ((s.write k p item seq).pc q).stale s.cursor ≤ _
      omega
  | commit p seq hpc =>
      have hsum := sum_stale s.cursor (show (s.commit k p seq).pc = _ from rfl)
      have hold : (s.pc p).stale s.cursor = 0 := Pc.stale_of_loaded (by rw [hpc]; rfl)
      have hnew : (Pc.idle : Pc α).stale s.cursor = 0 := Pc.stale_of_loaded rfl
      have hfails : fails s (.move p) = 0 := by simp [fails, hpc]
      change fails s (.move p) + ∑ q, ((s.commit k p seq).pc q).stale s.cursor ≤ _
      omega
  | test c =>
      change 0 + ∑ q, (s.pc q).stale s.cursor ≤ _
      omega
  | get c htested =>
      change 0 + ∑ q, (s.pc q).stale s.cursor ≤ _
      omega

/-- **At most `n - 1` failures for each success**: however `n` producers interleave, `publish`
returns `false` on contention at most `n - 1` times as often as a number is claimed. -/
theorem failures_bounded (k : Fin 64) (acts : List (Act ι ζ α)) {t : Sys ι ζ α}
    (hrun : run (step k) (start ι ζ α) acts = some t) :
    spent (step k) fails (start ι ζ α) acts ≤ (Fintype.card ι - 1) * t.log.length := by
  have hmain := spent_le_of_potential (step k) fails
    (fun s a => (Fintype.card ι - 1) * succeeds s a) (fun s => ∑ p, (s.pc p).stale s.cursor)
    (fun _ _ _ => fails_add_stale) hrun
  have hlog := counter_eq_add_spent (step k) succeeds (fun s => s.log.length)
    (fun _ _ _ => length_log) hrun
  have hstart : ∑ p, ((start ι ζ α).pc p).stale (start ι ζ α).cursor = 0 := by
    simp [start, Pc.stale, Pc.loaded]
  have hempty : (start ι ζ α).log.length = 0 := rfl
  rw [hstart, spent_mul] at hmain
  rw [hlog, hempty, Nat.zero_add]
  omega

/-- The hypothesis of `DisruptorTemplate.failures_bounded` holds of the run
`DisruptorTemplate.contendedRun`, in which one claim fails and two succeed. -/
theorem failures_bounded_contended :
    ∃ s, run (step 1) (start Bool Bool ℕ) contendedRun = some s ∧ s.log.length = 2 ∧
      spent (step 1) fails (start Bool Bool ℕ) contendedRun = 1 ∧
      spent (step 1) fails (start Bool Bool ℕ) contendedRun ≤
        (Fintype.card Bool - 1) * s.log.length := by
  obtain ⟨s, hrun, hlog, -⟩ := exists_run_contendedRun
  exact ⟨s, hrun, congrArg List.length hlog, by decide +kernel,
    failures_bounded 1 contendedRun hrun⟩

end Contention

end DisruptorTemplate
