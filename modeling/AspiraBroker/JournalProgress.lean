/-
**A journal that is left alone writes everything out.**

The worker has to find the entries in the ring, copy them, notice that nothing more comes, wait for
its timer and flush, and it goes around its loop for all that: a batch ends after 64 entries, a
flush interrupts the copying when the buffer is full, and an empty ring sends the worker to its
timer only if it found nothing in the whole round.

This module bounds the steps.  `Journal.workLeft` is a number that every step of the worker lowers
until all that was appended is in the file: an entry in the ring is worth more than the steps to
take it out, copy it and write its 104 bytes one at a time, and the place in the loop makes up for
the rest.  The environment has to help: `malloc` succeeds, every `write` writes something, though
not more than it is asked to, and the clock has passed the sync interval when the worker looks at it
with something to write.  A worker that is helped is never stuck, and it can always be helped.

Main definitions:

* `Journal.workLeft` — the bound;
* `Journal.Helpful` — what the environment has to do;
* `Journal.Ready` — the invariant.

Main results:

* `Journal.exists_work`, `Journal.exists_helps` — **a worker that is helped takes its next step, and
  it can be helped**;
* `Journal.workLeft_of_work` — **a step of the worker lowers the bound, or everything is in the
  file**;
* `Journal.idle_journal_writes_out` — **a journal that is left alone writes everything out**.
-/

import AspiraBroker.AmortisedRuns
import AspiraBroker.JournalCrash
import AspiraBroker.JournalDurability
import AspiraBroker.JournalShutdown

set_option relaxedAutoImplicit false
set_option autoImplicit false

namespace Journal

open LockfreeQueue Ring Transition

universe v

variable {ι : Type v}

/-! ### The bound -/

/-- The entries in the ring. -/
def remaining (s : Sys ι) : ℕ := s.ring.pushed.length - s.ring.popped.length

/-- The entry between the ring and the buffer. -/
def inHand : WorkerPc → ℕ
  | .got .. | .copy .. | .flush (.capacity ..) _ => 1
  | .start | .loop | .drain _ | .flush (.timer _) _ | .flush .final _ | .idle | .exited | .failed
  | .overrun _ => 0

/-- The place in a pop; one that follows others in its batch has another round of the loop before
it. -/
def popRank (drained : ℕ) : PopPc JournalEntry → ℕ
  | .loadHead => if drained = 0 then 3 else 6
  | .loadTail _ => if drained = 0 then 2 else 5
  | .read _ => 1
  | .store .. => 0

/-- The place in the loop, with the number of entries in the ring. -/
def rank (waiting : ℕ) (pop : PopPc JournalEntry) : WorkerPc → ℕ
  | .start => 9
  | .loop => 4
  | .drain drained => popRank drained pop
  | .got .. => 2
  | .copy .. => 1
  | .idle => if waiting = 0 then 1 else 5
  | .flush .. | .exited | .failed | .overrun _ => 0

theorem popRank_le (d : ℕ) (pop : PopPc JournalEntry) : popRank d pop ≤ 6 := by
  unfold popRank
  split <;> first | decide | (split <;> decide)

theorem rank_le (waiting : ℕ) (pop : PopPc JournalEntry) (w : WorkerPc) :
    rank waiting pop w ≤ 9 := by
  cases w with
  | drain d => exact (popRank_le d pop).trans (by decide)
  | idle =>
      rw [rank]
      split <;> decide
  | start | loop | got | copy | flush | exited | failed | overrun => exact of_decide_eq_true rfl

/-- A bound for the steps of the worker until everything is in the file. -/
def workLeft (s : Sys ι) : ℕ :=
  1060 * remaining s + 1050 * inHand s.worker + 10 * (s.buf.length - inFlight s.worker) +
    rank (remaining s) s.ring.pop s.worker

/-- The worker is there, and not on its way out. -/
def WorkerPc.alive : WorkerPc → Bool
  | .start | .loop | .drain _ | .got .. | .copy .. | .idle | .flush (.capacity ..) _
  | .flush (.timer _) _ => true
  | .flush .final _ | .exited | .failed | .overrun _ => false

/-- What `write` returns brings the flush on, where `room` bytes are left to write. -/
def WriteResult.advances (room : ℕ) : WriteResult → Bool
  | .wrote n => decide (0 < n ∧ n ≤ room)
  | .eintr | .error => false

/-- The environment helps the worker where it stands: memory is there, `write` writes at least one
byte and at most those that are left, and the clock has moved on when there is something to
write. -/
def WorkerEnv.Helps (env : WorkerEnv) (s : Sys ι) : WorkerPc → Prop
  | .start => env.mallocOk = true
  | .flush _ writtenTotal => env.write.advances (s.buf.length - writtenTotal) = true
  | .idle => 0 < s.buf.length → syncNs s ≤ env.now - s.lastSync
  | .loop | .drain _ | .got .. | .copy .. | .exited | .failed | .overrun _ => True

instance (env : WorkerEnv) (s : Sys ι) (w : WorkerPc) : Decidable (env.Helps s w) := by
  cases w <;> unfold WorkerEnv.Helps <;> infer_instance

/-- Only the worker takes steps, and the environment helps it. -/
def Helpful (s : Sys ι) : Act ι → Prop
  | .work env => env.Helps s s.worker
  | .append .. | .push _ | .flush | .stop | .join => False

instance (s : Sys ι) : ∀ a, Decidable (Helpful s a)
  | .work env => inferInstanceAs (Decidable (env.Helps s s.worker))
  | .append .. | .push _ | .flush | .stop | .join => isFalse id

theorem Helpful.eq_work {s : Sys ι} {a : Act ι} (h : Helpful s a) : ∃ env, a = .work env := by
  cases a with
  | work env => exact ⟨env, rfl⟩
  | append | push | flush | stop | join => exact h.elim

/-! ### The invariant -/

/-- The worker is inside a pop only in a batch that is not full. -/
def AtRest (pop : PopPc JournalEntry) : WorkerPc → Prop
  | .drain drained => drained < journalBatchDrain ∨ pop = .loadHead
  | _ => pop = .loadHead

/-- **The invariant.** -/
structure Ready (file : List UInt8) (s : Sys ι) : Prop where
  kept : Spsc.Kept ringCapacity s.ring
  conserved : Conserved file s
  fits : Fits s.buf s.worker
  buf : s.buf.length ≤ btCfgJournalBufSize
  rest : AtRest s.ring.pop s.worker

theorem ready_btJournalOpen (file : List UInt8) (syncIntervalMs : ℤ) :
    Ready file (btJournalOpen file syncIntervalMs : Sys ι) where
  kept := Spsc.init_kept _ _
  conserved := btJournalOpen_conserved file syncIntervalMs
  fits := trivial
  buf := Nat.zero_le _
  rest := rfl

theorem atRest_afterBatch (d : ℕ) : AtRest .loadHead (afterBatch d) := by
  unfold afterBatch
  split <;> rfl

section Step

variable [DecidableEq ι] {s s' : Sys ι}

/-- Everything a step of the worker inside of its inner loop can do. -/
inductive Drains (s : Sys ι) (d : ℕ) : Sys ι → Prop
  | full (hd : journalBatchDrain ≤ d) : Drains s d { s with worker := afterBatch d }
  | loadHead (hd : d < journalBatchDrain) (hpop : s.ring.pop = .loadHead) :
      Drains s d { s with ring := { s.ring with pop := .loadTail s.ring.q.head } }
  | empty {h : ℕ} (hd : d < journalBatchDrain) (hpop : s.ring.pop = .loadTail h)
      (hempty : h = s.ring.q.tail) :
      Drains s d { s with ring := { s.ring with pop := .loadHead }, worker := afterBatch d }
  | nonempty {h : ℕ} (hd : d < journalBatchDrain) (hpop : s.ring.pop = .loadTail h)
      (hne : h ≠ s.ring.q.tail) : Drains s d { s with ring := { s.ring with pop := .read h } }
  | read {h : ℕ} (hd : d < journalBatchDrain) (hpop : s.ring.pop = .read h) :
      Drains s d { s with ring := { s.ring with pop := .store h (s.ring.q.buffer h) } }
  | store {h : ℕ} {entry : JournalEntry} (hd : d < journalBatchDrain)
      (hpop : s.ring.pop = .store h entry) :
      Drains s d
        { s with
          ring := { s.ring with
            q := { s.ring.q with head := (h + 1) &&& s.ring.q.mask }
            pop := .loadHead
            popped := s.ring.popped ++ [entry] }
          worker := .got d entry }

theorem drains_of_work {env : WorkerEnv} {d : ℕ} (hw : s.worker = .drain d)
    (h : step s (.work env) = some s') : Drains s d s' := by
  simp only [step, workerStep, hw] at h
  split at h
  case isFalse hd =>
    cases h
    exact .full (by omega)
  case isTrue hd =>
    cases hpop : s.ring.pop with
    | loadHead =>
        simp only [workerPop, hpop, spscPopStep, ringPopStep, returned, List.append_nil,
          Option.some.injEq] at h
        subst h
        exact hw ▸ Drains.loadHead hd hpop
    | loadTail h₀ =>
        by_cases hempty : h₀ = s.ring.q.tail
        · simp only [workerPop, hpop, spscPopStep, ringPopStep, ne_eq, hempty, not_true_eq_false,
            if_false, returned, List.append_nil, Option.some.injEq] at h
          subst h
          exact .empty hd hpop hempty
        · simp only [workerPop, hpop, spscPopStep, ringPopStep, ne_eq, hempty, not_false_eq_true,
            if_true, returned, List.append_nil, Option.some.injEq] at h
          subst h
          exact hw ▸ Drains.nonempty hd hpop hempty
    | read h₀ =>
        simp only [workerPop, hpop, spscPopStep, ringPopStep, returned, List.append_nil,
          Option.some.injEq] at h
        subst h
        exact hw ▸ Drains.read hd hpop
    | store h₀ entry =>
        simp only [workerPop, hpop, spscPopStep, ringPopStep, returned, Option.some.injEq] at h
        subst h
        exact .store hd hpop

/-- A step of an append leaves the consumer alone. -/
theorem pop_of_append {ring : Spsc.Sys ι JournalEntry} {b : Spsc.Act ι JournalEntry}
    (hb : b ≠ .pop) (h : Spsc.step s.ring b = some ring) : ring.pop = s.ring.pop := by
  cases Spsc.steps_of_step h with
  | pop => exact absurd rfl hb
  | call | loadHead | full | notFull | write | store => rfl

theorem atRest_step {a : Act ι} (hs : AtRest s.ring.pop s.worker) (h : step s a = some s') :
    AtRest s'.ring.pop s'.worker := by
  have drains : ∀ {env d}, a = .work env → s.worker = .drain d →
      AtRest s'.ring.pop s'.worker := by
    intro env d ha hw
    subst ha
    rw [hw] at hs
    cases drains_of_work hw h with
    | full hd =>
        obtain hlt | hpop := hs
        · omega
        · change AtRest s.ring.pop (afterBatch d)
          rw [hpop]
          exact atRest_afterBatch d
    | loadHead hd | nonempty hd | read hd =>
        rw [show _ = WorkerPc.drain d from hw]
        exact .inl hd
    | empty => exact atRest_afterBatch d
    | store => rfl
  cases steps_of_step h with
  | append hm hring =>
      rw [show _ = s.ring.pop from pop_of_append (by simp) hring]
      exact hs
  | push hring =>
      rw [show _ = s.ring.pop from pop_of_append (by simp) hring]
      exact hs
  | popWait hw | popEmpty hw | popEntry hw | batchFull hw => exact drains rfl hw
  | loopOn hw hr =>
      rw [hw] at hs
      exact .inr hs
  | copyIn hw hb =>
      rw [hw] at hs
      exact .inr hs
  | @writeEnd env site done total file hw hf =>
      rw [hw] at hs
      cases site <;> exact hs
  | alloc hw | allocFail hw | loopFlush hw | loopExit hw | capFlush hw | capOk hw | copyOver hw
  | timerFlush hw | timerSkip hw | writeMore hw =>
      rw [hw] at hs
      exact hs
  | flush | stop | join => exact hs

/-- **A step keeps the invariant.** -/
theorem ready_step {file : List UInt8} {a : Act ι} (hs : Ready file s)
    (hg : ExclusiveAppend s a ∧ FlushFrees s a) (h : step s a = some s') : Ready file s' where
  kept := step_ring_kept hs.kept hg.1 h
  conserved := step_conserved hs.conserved h
  fits := step_fits hs.fits hg.2 h
  buf := step_buf_le hs.buf h
  rest := atRest_step hs.rest h

/-! ### The bound goes down -/

/-- Everything that was appended is in the file. -/
def WrittenOut (file : List UInt8) (s : Sys ι) : Prop := s.file = file ++ serialize s.ring.items

omit [DecidableEq ι] in
/-- With nothing in the ring, in hand or in the buffer, everything is in the file. -/
theorem Ready.writtenOut {file : List UInt8} (hs : Ready file s) (hremaining : remaining s = 0)
    (hnothing : unflushed s.buf s.worker = []) : WrittenOut file s := by
  have hitems : s.ring.popped = s.ring.items := by
    refine hs.kept.order.eq_of_length_le ?_
    rw [Spsc.length_items]
    unfold remaining at hremaining
    omega
  have hstream := hs.conserved
  rw [Conserved, stream, hnothing, List.append_nil, hitems] at hstream
  exact hstream

/-- A step of the inner loop. -/
theorem workLeft_of_drain {file : List UInt8} {env : WorkerEnv} {d : ℕ} (hs : Ready file s)
    (hw : s.worker = .drain d) (h : step s (.work env) = some s') : workLeft s' < workLeft s := by
  have hrest := hs.rest
  have hpopped := hs.kept.pop
  have hle := hs.kept.ring.le
  rw [hw] at hrest
  cases drains_of_work hw h with
  | full hd =>
      have hpop : s.ring.pop = .loadHead := hrest.resolve_left (by omega)
      have hd0 : d ≠ 0 := by
        rintro rfl
        exact absurd hd (by decide)
      have hbatch : afterBatch d = .loop := if_neg hd0
      simp only [workLeft, remaining, rank, hw, hpop, hbatch, popRank, inHand, inFlight, if_neg hd0]
      omega
  | loadHead hd hpop =>
      simp only [workLeft, remaining, rank, hw, hpop, popRank]
      split <;> omega
  | @empty h₀ hd hpop hempty =>
      rw [hpop] at hpopped
      have hall : s.ring.popped.length = s.ring.pushed.length :=
        hs.kept.ring.empty_iff.1 (hpopped.symm.trans hempty)
      by_cases hd0 : d = 0
      · have hbatch : afterBatch d = .idle := if_pos hd0
        simp only [workLeft, remaining, rank, hw, hpop, hbatch, popRank, inHand, inFlight,
          if_pos hd0, hall, Nat.sub_self, if_true]
        omega
      · have hbatch : afterBatch d = .loop := if_neg hd0
        simp only [workLeft, remaining, rank, hw, hpop, hbatch, popRank, inHand, inFlight,
          if_neg hd0]
        omega
  | nonempty hd hpop hne =>
      simp only [workLeft, remaining, rank, hw, hpop, popRank]
      split <;> omega
  | read hd hpop =>
      simp only [workLeft, remaining, rank, hw, hpop, popRank]
      omega
  | store hd hpop =>
      rw [hpop] at hpopped
      have hlt : s.ring.popped.length < s.ring.pushed.length := hpopped.2
      simp only [workLeft, remaining, rank, hw, hpop, popRank, inHand, inFlight,
        List.length_append, List.length_singleton]
      omega

omit [DecidableEq ι] in
/-- A call of `write` that helps writes a byte. -/
theorem lt_of_flushWrite {file file' buf : List UInt8} {done total : ℕ} {r : WriteResult}
    {more : Bool} (hadvances : r.advances (buf.length - done) = true)
    (h : flushWrite file buf done r = some (file', total, more)) : done < total := by
  cases r with
  | eintr | error => cases hadvances
  | wrote n =>
      obtain ⟨hn, hroom⟩ : 0 < n ∧ n ≤ buf.length - done := of_decide_eq_true hadvances
      rw [flushWrite, if_pos hroom, if_neg hn.ne'] at h
      simp only [Option.some.injEq, Prod.mk.injEq] at h
      omega

/-- A step of a flush. -/
theorem workLeft_of_flush {file : List UInt8} {env : WorkerEnv} {site : FlushSite} {done : ℕ}
    (hs : Ready file s) (hw : s.worker = .flush site done)
    (hadvances : env.write.advances (s.buf.length - done) = true)
    (h : step s (.work env) = some s') : workLeft s' < workLeft s := by
  have hlt : done < s.buf.length := by
    have hfits := hs.fits
    rwa [hw] at hfits
  cases steps_of_step h with
  | writeMore hw' hf =>
      cases hw.symm.trans hw'
      have hmore := lt_of_flushWrite hadvances hf
      have htotal := flushWrite_more hlt hf
      cases site <;> simp only [workLeft, remaining, rank, hw, inHand, inFlight] <;> omega
  | writeEnd hw' hf =>
      cases hw.symm.trans hw'
      have hmore := lt_of_flushWrite hadvances hf
      obtain ⟨-, -, htotal⟩ := length_flushWrite hlt hf
      cases site <;>
        simp only [workLeft, remaining, rank, hw, inHand, inFlight, afterFlush, flushDone,
          List.length_drop] <;> omega
  | alloc hw' | allocFail hw' | loopOn hw' | loopFlush hw' | loopExit hw' | popWait hw'
  | popEmpty hw' | popEntry hw' | batchFull hw' | capFlush hw' | capOk hw' | copyIn hw'
  | copyOver hw' | timerFlush hw' | timerSkip hw' => cases hw.symm.trans hw'

/-- A step of the timer: with an empty buffer and nothing in the ring, everything is in the file. -/
theorem workLeft_of_idle {file : List UInt8} {env : WorkerEnv} (hs' : Ready file s')
    (hw : s.worker = .idle) (hdue : 0 < s.buf.length → syncNs s ≤ env.now - s.lastSync)
    (h : step s (.work env) = some s') : WrittenOut file s' ∨ workLeft s' < workLeft s := by
  simp only [step, workerStep, hw, and_iff_left_of_imp hdue] at h
  split at h
  case isTrue hbuf =>
    rw [enterFlush_of_pos hbuf] at h
    cases h
    refine .inr ?_
    have hpos : 0 < rank (remaining s) s.ring.pop .idle := by
      change 0 < if remaining s = 0 then 1 else 5
      split <;> decide
    simp only [workLeft, hw, inHand, inFlight]
    change 1060 * remaining s + _ + _ + 0 < _
    omega
  case isFalse hbuf =>
    have hempty : s.buf = [] := List.eq_nil_of_length_eq_zero (by omega)
    cases h
    by_cases hremaining : remaining s = 0
    · exact .inl (hs'.writtenOut hremaining hempty)
    · refine .inr ?_
      simp only [workLeft, rank, hw, inHand, inFlight, if_neg hremaining]
      change 1060 * remaining s + _ + _ + 4 < _
      omega

/-- **A step of the worker lowers the bound, or everything is in the file.** -/
theorem workLeft_of_work {file : List UInt8} {env : WorkerEnv} (hs : Ready file s)
    (hs' : Ready file s') (hrunning : s.running = true) (hhelp : Helpful s (.work env))
    (h : step s (.work env) = some s') : WrittenOut file s' ∨ workLeft s' < workLeft s := by
  cases hw : s.worker with
  | start =>
      simp only [Helpful, WorkerEnv.Helps, hw] at hhelp
      simp only [step, workerStep, hw, hhelp, if_true, Option.some.injEq] at h
      subst h
      refine .inr ?_
      simp only [workLeft, remaining, rank, hw, inHand, inFlight, List.length_nil]
      omega
  | loop =>
      have hrest : s.ring.pop = .loadHead := by
        have hrest := hs.rest
        rwa [hw] at hrest
      simp only [step, workerStep, hw, hrunning, if_true, Option.some.injEq] at h
      subst h
      refine .inr ?_
      simp only [workLeft, remaining, rank, hw, hrest, popRank, inHand, inFlight, if_true]
      omega
  | drain d => exact .inr (workLeft_of_drain hs hw h)
  | got d entry =>
      refine .inr ?_
      simp only [step, workerStep, hw] at h
      split at h
      · have hsize : sizeofJournalEntry < btCfgJournalBufSize := by decide
        rw [enterFlush_of_pos (by omega)] at h
        cases h
        simp only [workLeft, remaining, rank, hw, inHand, inFlight]
        omega
      · cases h
        simp only [workLeft, remaining, rank, hw, inHand, inFlight]
        omega
  | copy d entry =>
      have hfits : s.buf.length + sizeofJournalEntry ≤ btCfgJournalBufSize := by
        have hfits := hs.fits
        rwa [hw] at hfits
      have hrest : s.ring.pop = .loadHead := by
        have hrest := hs.rest
        rwa [hw] at hrest
      simp only [step, workerStep, hw, if_pos hfits, Option.some.injEq] at h
      subst h
      refine .inr ?_
      have hbytes : entry.bytes.length = 104 := entry.size
      simp only [workLeft, remaining, rank, hw, hrest, popRank, inHand, inFlight,
        List.length_append, hbytes, if_neg (Nat.succ_ne_zero d)]
      omega
  | flush site done =>
      simp only [Helpful, WorkerEnv.Helps, hw] at hhelp
      exact .inr (workLeft_of_flush hs hw hhelp h)
  | idle =>
      simp only [Helpful, WorkerEnv.Helps, hw] at hhelp
      exact workLeft_of_idle hs' hw hhelp h
  | exited | failed | overrun => simp [step, workerStep, hw] at h

/-! ### The worker left alone -/

omit [DecidableEq ι] in
/-- A helpful environment is one the invariant asks for. -/
theorem regular_of_helpful {a : Act ι} (hhelp : Helpful s a) :
    ExclusiveAppend s a ∧ FlushFrees s a := by
  obtain ⟨env, rfl⟩ := hhelp.eq_work
  refine ⟨trivial, ?_⟩
  intro d entry done hw hfails
  simp only [Helpful, WorkerEnv.Helps, hw] at hhelp
  cases hwrite : env.write with
  | wrote n =>
      rw [hwrite] at hfails hhelp
      exact absurd hfails (of_decide_eq_true hhelp).1.ne'
  | eintr | error =>
      rw [hwrite] at hhelp
      cases hhelp

/-- The worker is left alone, in the middle of its work. -/
structure LeftAlone (file : List UInt8) (s : Sys ι) : Prop where
  ready : Ready file s
  running : s.running = true
  alive : s.worker.alive = true

omit [DecidableEq ι] in
/-- A `write` that helps is possible. -/
theorem exists_flushWrite (file : List UInt8) {buf : List UInt8} {done : ℕ} {r : WriteResult}
    (hadvances : r.advances (buf.length - done) = true) :
    ∃ out, flushWrite file buf done r = some out := by
  cases r with
  | eintr | error => cases hadvances
  | wrote n =>
      obtain ⟨hn, hroom⟩ : 0 < n ∧ n ≤ buf.length - done := of_decide_eq_true hadvances
      exact ⟨_, by rw [flushWrite, if_pos hroom, if_neg hn.ne']⟩

/-- **A worker that is helped takes its next step.** -/
theorem exists_work {env : WorkerEnv} (halive : s.worker.alive = true)
    (hhelp : Helpful s (.work env)) : ∃ s', step s (.work env) = some s' := by
  cases hw : s.worker with
  | start | loop | got | copy | idle =>
      simp only [step, workerStep, hw]
      repeat' split
      all_goals exact ⟨_, rfl⟩
  | drain d =>
      simp only [step, workerStep, hw]
      split
      · cases (workerPop s.ring).2 <;> exact ⟨_, rfl⟩
      · exact ⟨_, rfl⟩
  | flush site done =>
      simp only [Helpful, WorkerEnv.Helps, hw] at hhelp
      obtain ⟨⟨file, total, more⟩, hwrite⟩ := exists_flushWrite s.file hhelp
      simp only [step, workerStep, hw, hwrite]
      cases more <;> exact ⟨_, rfl⟩
  | exited | failed | overrun =>
      rw [hw] at halive
      cases halive

omit [DecidableEq ι] in
/-- **A worker that is left alone can be helped**: by memory, by a `write` of one byte, and by a
clock that stands at the end of the sync interval. -/
theorem exists_helps {file : List UInt8} (hs : LeftAlone file s) :
    ∃ env, Helpful s (.work env) := by
  refine ⟨{ mallocOk := true, now := s.lastSync + syncNs s, write := .wrote 1 }, ?_⟩
  change WorkerEnv.Helps _ s s.worker
  cases hw : s.worker with
  | start => rfl
  | flush site done =>
      have hfits := hs.ready.fits
      rw [hw] at hfits
      exact decide_eq_true ⟨Nat.one_pos, Nat.sub_pos_of_lt hfits⟩
  | idle =>
      intro _
      change syncNs s ≤ s.lastSync + syncNs s - s.lastSync
      rw [UInt64.add_comm, UInt64.add_sub_cancel]
      exact UInt64.le_refl _
  | loop | drain | got | copy | exited | failed | overrun => trivial

theorem alive_of_work {file : List UInt8} {env : WorkerEnv} (hs : LeftAlone file s)
    (hhelp : Helpful s (.work env)) (h : step s (.work env) = some s') :
    s'.worker.alive = true := by
  have halive := hs.alive
  have hbatch : ∀ d, (afterBatch d).alive = true := by
    intro d
    unfold afterBatch
    split <;> rfl
  cases steps_of_step h with
  | allocFail hw hmalloc =>
      simp only [Helpful, WorkerEnv.Helps, hw] at hhelp
      exact absurd hhelp (by simp [hmalloc])
  | loopFlush hw hr | loopExit hw hr => exact absurd hs.running (by simp [hr])
  | popEmpty | batchFull => exact hbatch _
  | copyOver hw hover =>
      have hfits := hs.ready.fits
      rw [hw] at hfits
      exact absurd hfits (Nat.not_le.2 hover)
  | @writeMore _ site _ _ _ hw _ | @writeEnd _ site _ _ _ hw _ =>
      rw [hw] at halive
      cases site with
      | capacity | timer => rfl
      | final => cases halive
  | alloc | loopOn | popWait | popEntry | capFlush | capOk | copyIn | timerFlush | timerSkip => rfl

/-- A step of the worker keeps what was appended. -/
theorem items_of_work {env : WorkerEnv} (h : step s (.work env) = some s') :
    s'.ring.items = s.ring.items := by
  cases steps_of_step h with
  | popWait hw hpop | popEmpty hw hpop | popEntry hw hpop =>
      exact congrArg (List.map Prod.snd) (Spsc.pushed_pop hpop)
  | @writeEnd _ site _ _ _ hw _ => cases site <;> rfl
  | _ => rfl

/-- **Once everything is in the file, it stays there.** -/
theorem writtenOut_of_work {file : List UInt8} {env : WorkerEnv} (hs' : Ready file s')
    (h : step s (.work env) = some s') (hD : WrittenOut file s) : WrittenOut file s' := by
  have hlen : s.file.length ≤ s'.file.length := by
    rcases step_file h with heq | ⟨-, hle⟩
    · rw [heq]
    · exact hle
  -- the file is a prefix of everything that was appended, and it is not shorter than that
  obtain ⟨rest, hitems⟩ := hs'.kept.order
  have hstream : s'.file ++ unflushed s'.buf s'.worker = file ++ serialize s'.ring.popped :=
    hs'.conserved
  have hprefix : s'.file <+: file ++ serialize s'.ring.items := by
    refine ⟨unflushed s'.buf s'.worker ++ serialize rest, ?_⟩
    rw [← List.append_assoc, hstream, List.append_assoc, ← serialize_append, hitems]
  refine hprefix.eq_of_length_le ?_
  rw [items_of_work h]
  exact (congrArg List.length hD).symm.le.trans hlen

/-- A helpful step of the worker keeps the situation. -/
theorem leftAlone_of_work {file : List UInt8} {a : Act ι} (hs : LeftAlone file s)
    (hhelp : Helpful s a) (h : step s a = some s') : LeftAlone file s' := by
  obtain ⟨env, rfl⟩ := hhelp.eq_work
  refine ⟨ready_step hs.ready (regular_of_helpful hhelp) h, ?_, alive_of_work hs hhelp h⟩
  exact (work_frame h).2.1.trans hs.running

/-- A worker that is helped all the time goes on. -/
theorem exists_run_of_helpful {file : List UInt8} {acts : List (Act ι)} (hs : LeftAlone file s)
    (hhelp : Along step Helpful s acts) : ∃ t, run step s acts = some t := by
  refine exists_run_of_enabled (I := LeftAlone file)
    (fun _ _ _ hs hg h => leftAlone_of_work hs hg h) (fun s a hs hg => ?_) hs hhelp
  obtain ⟨env, rfl⟩ := hg.eq_work
  exact exists_work hs.alive hg

omit [DecidableEq ι] in
/-- The bound is never large: the ring and the buffer are bounded. -/
theorem workLeft_lt {file : List UInt8} (hs : Ready file s) :
    workLeft s < 1060 * ringCapacity.slots + 10 * btCfgJournalBufSize := by
  have hremaining : remaining s + 1 ≤ ringCapacity.slots := by
    have hroom := hs.kept.ring.room
    have hle := hs.kept.ring.le
    unfold remaining
    omega
  have hhand : inHand s.worker ≤ 1 := by
    unfold inHand
    split <;> decide
  have hrank := rank_le (remaining s) s.ring.pop s.worker
  have hbuf : s.buf.length - inFlight s.worker ≤ btCfgJournalBufSize :=
    (Nat.sub_le _ _).trans hs.buf
  unfold workLeft
  omega

/-- **A journal that is left alone writes everything out**: after any run of appenders and worker in
which no two appends store the tail at once and no capacity flush fails with a full buffer, a worker
that is then left alone with a helpful environment goes on, and has everything that was appended in
the file after a number of steps that the ring and the buffer bound.  There is such an environment
for any number of steps. -/
theorem idle_journal_writes_out (file : List UInt8) (syncIntervalMs : ℤ) (acts : List (Act ι))
    (hregular : Along step (fun s a => ExclusiveAppend s a ∧ FlushFrees s a)
      (btJournalOpen file syncIntervalMs) acts)
    (hrun : run step (btJournalOpen file syncIntervalMs) acts = some s)
    (hrunning : s.running = true) (halive : s.worker.alive = true) :
    workLeft s < 1060 * ringCapacity.slots + 10 * btCfgJournalBufSize ∧
      (∀ envs : List WorkerEnv, Along step Helpful s (envs.map .work) →
        workLeft s < envs.length →
        ∃ t, run step s (envs.map .work) = some t ∧ t.file = file ++ serialize s.ring.items) ∧
      ∀ n, ∃ envs : List WorkerEnv, envs.length = n ∧ Along step Helpful s (envs.map .work) := by
  have hready : Ready file s :=
    run_induction (fun s a s' hs hg h => ready_step hs hg h)
      (ready_btJournalOpen file syncIntervalMs) hregular hrun
  have hs : LeftAlone file s := ⟨hready, hrunning, halive⟩
  have hkeep : ∀ (s : Sys ι) a s', LeftAlone file s → Helpful s a → step s a = some s' →
      LeftAlone file s' := fun s a s' hs hhelp h => leftAlone_of_work hs hhelp h
  refine ⟨workLeft_lt hready, fun envs hhelp hlen => ?_, fun n => ?_⟩
  · obtain ⟨t, hrun'⟩ := exists_run_of_helpful hs hhelp
    refine ⟨t, hrun', ?_⟩
    have hitems : t.ring.items = s.ring.items := by
      refine run_induction (I := fun t => t.ring.items = s.ring.items) ?_ rfl hhelp hrun'
      intro u a u' hu hg h
      obtain ⟨env, rfl⟩ := hg.eq_work
      exact (items_of_work h).trans hu
    rw [← hitems]
    refine reached_of_potential workLeft (D := WrittenOut file) hkeep ?_ ?_ hs hhelp hrun'
      (by rwa [List.length_map])
    · intro s a s' hs hg h hD
      obtain ⟨env, rfl⟩ := hg.eq_work
      exact writtenOut_of_work (hkeep s _ s' hs hg h).ready h hD
    · intro s a s' hs hg h
      obtain ⟨env, rfl⟩ := hg.eq_work
      exact workLeft_of_work hs.ready (hkeep s _ s' hs hg h).ready hs.running hg h
  · refine exists_along hkeep (fun s hs => ?_) hs n
    obtain ⟨env, hhelp⟩ := exists_helps hs
    obtain ⟨s', hstep⟩ := exists_work hs.alive hhelp
    exact ⟨env, s', hhelp, hstep⟩

end Step

/-- The environment of a worker that finds the sync interval passed and whose `write` writes one
entry. -/
def entryWritten : WorkerEnv := { calm with write := .wrote sizeofJournalEntry, now := 1000000 }

/-- The journal with one entry in the buffer. -/
def oneBuffered : Sys Unit :=
  (run step (btJournalOpen [] 1) (appendAndCopy (.fill 1))).get (by decide +kernel)

/-- The hypotheses of `Journal.idle_journal_writes_out` hold of one entry that is appended and
copied, after which the worker is left alone and writes it. -/
theorem idle_journal_writes_out_entry :
    workLeft oneBuffered = 1044 ∧
      ∃ t, run step oneBuffered ((List.replicate 1045 entryWritten).map .work) = some t ∧
        t.file = serialize [.fill 1] :=
  ⟨by decide +kernel,
    (idle_journal_writes_out [] 1 (appendAndCopy (.fill 1)) (by decide +kernel)
      (Option.some_get _).symm (by decide +kernel) (by decide +kernel)).2.1
      (List.replicate 1045 entryWritten) (by decide +kernel) (by decide +kernel)⟩

end Journal
