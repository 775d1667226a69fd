/-
**The write buffer of the journal.**

Before it copies an entry the worker flushes the buffer if the entry does not fit, and then copies
without another test.  The flush gives up at the first error of `write`, and what it did not write
stays in the buffer; so the copy is in bounds exactly when every failing flush has freed the room of
an entry before it fails.  A disk that fails at once makes the worker write past its buffer.

Main definitions:

* `Journal.CopyInBounds` — the entry that is about to be copied fits into the buffer;
* `Journal.FlushFrees` — a `write` of a capacity flush fails only after the flush has made room.

Main results:

* `Journal.copies_in_bounds_iff` — **every copy of a run is in bounds exactly when every failing
  capacity flush has made room**;
* `Journal.round_fills` — one round of an append and its drain adds one entry to the buffer;
* `Journal.full_disk_overruns_buffer` — a full disk makes the worker write past its buffer.
-/

import AspiraBroker.Journal

set_option relaxedAutoImplicit false
set_option autoImplicit false

namespace Journal

open LockfreeQueue Ring Transition

universe v

variable {ι : Type v}

/-! ### When the copy is in bounds -/

/-- The entry that is about to be copied fits into the buffer. -/
def CopyInBounds (s : Sys ι) : Prop :=
  ∀ d entry, s.worker = .copy d entry → s.buf.length + sizeofJournalEntry ≤ btCfgJournalBufSize

/-- A `write` of a capacity flush fails only after the flush has made room for an entry. -/
def FlushFrees (s : Sys ι) : Act ι → Prop
  | .work env =>
      ∀ d entry writtenTotal, s.worker = .flush (.capacity d entry) writtenTotal →
        env.write.fails → s.buf.length + sizeofJournalEntry ≤ btCfgJournalBufSize + writtenTotal
  | _ => True

/-- What the offset of the buffer says about where the worker stands: a flush has something left to
write, and an entry that is about to be copied fits. -/
def Fits (buf : List UInt8) : WorkerPc → Prop
  | .flush _ writtenTotal => writtenTotal < buf.length
  | .copy _ _ => buf.length + sizeofJournalEntry ≤ btCfgJournalBufSize
  | _ => True

theorem fits_afterBatch (buf : List UInt8) (d : ℕ) : Fits buf (afterBatch d) := by
  unfold afterBatch
  split <;> trivial

theorem copyInBounds_of_fits {s : Sys ι} (h : Fits s.buf s.worker) : CopyInBounds s := by
  intro d entry hw
  rw [hw] at h
  exact h

/-- The end of a flush leaves room for the entry of a capacity flush, if the loop wrote everything
or had made room when it failed. -/
theorem fits_afterFlush {s : Sys ι} {total : ℕ} {now : UInt64} {site : FlushSite}
    (h : ∀ d entry, site = .capacity d entry →
      s.buf.length + sizeofJournalEntry ≤ btCfgJournalBufSize + total) :
    Fits (afterFlush (flushDone s total) now site).buf
      (afterFlush (flushDone s total) now site).worker := by
  cases site with
  | capacity d entry =>
      have hroom := h d entry rfl
      have hsize : sizeofJournalEntry ≤ btCfgJournalBufSize := by decide
      change (s.buf.drop total).length + sizeofJournalEntry ≤ btCfgJournalBufSize
      rw [List.length_drop]
      omega
  | timer t => trivial
  | final => trivial

section Step

variable [DecidableEq ι] {s s' : Sys ι}

/-- Every step that meets the condition keeps the buffer within its bounds. -/
theorem step_fits {a : Act ι} (hs : Fits s.buf s.worker) (hg : FlushFrees s a)
    (h : step s a = some s') : Fits s'.buf s'.worker := by
  cases steps_of_step h with
  | append hm hring => exact hs
  | push hring => exact hs
  | loopFlush hw hr hb => exact hb
  | popEmpty hw hpop => exact fits_afterBatch s.buf _
  | batchFull hw hd => exact fits_afterBatch s.buf _
  | capFlush hw hb =>
      -- an entry that does not fit finds a buffer that is not empty
      change 0 < s.buf.length
      simp only [btCfgJournalBufSize, sizeofJournalEntry] at hb
      omega
  | capOk hw hb => exact hb
  | timerFlush hw hb => exact hb
  | writeMore hw hf =>
      rw [hw] at hs
      exact flushWrite_more hs hf
  | @writeEnd env site done total file hw hf =>
      refine fits_afterFlush fun d entry hsite => ?_
      change s.buf.length + sizeofJournalEntry ≤ btCfgJournalBufSize + total
      rcases flushWrite_end hf with hall | ⟨rfl, hfails⟩
      · have hsize : sizeofJournalEntry ≤ btCfgJournalBufSize := by decide
        omega
      · exact hg d entry total (by rw [hw, hsite]) hfails
  | flush hm => exact hs
  | stop hm => exact hs
  | join hm hret => exact hs
  | alloc => trivial
  | allocFail => trivial
  | loopOn => trivial
  | loopExit => trivial
  | popWait => trivial
  | popEntry => trivial
  | copyIn => trivial
  | copyOver => trivial
  | timerSkip => trivial

/-- A failing `write` of a capacity flush ends it, and the worker is about to copy its entry. -/
theorem step_of_failing_write {env : WorkerEnv} {d n : ℕ} {entry : JournalEntry}
    (hw : s.worker = .flush (.capacity d entry) n) (hr : env.write.fails) :
    ∃ s', step s (.work env) = some s' ∧ s'.worker = .copy d entry ∧ s'.buf = s.buf.drop n := by
  have hf : flushWrite s.file s.buf n env.write = some (s.file, n, false) := by
    cases hwr : env.write with
    | error => rfl
    | eintr =>
        rw [hwr] at hr
        exact hr.elim
    | wrote m =>
        rw [hwr] at hr
        obtain rfl : m = 0 := hr
        simp [flushWrite]
  refine ⟨afterFlush (flushDone s n) env.now (.capacity d entry), ?_, rfl, rfl⟩
  simp only [step, workerStep, hw, hf]
  rfl

/-- **Every copy of a run is in bounds exactly when each `write` of a capacity flush that fails does
so only after the flush has made room for an entry.** -/
theorem copies_in_bounds_iff (file : List UInt8) (syncIntervalMs : ℤ) (as : List (Act ι)) :
    Throughout step CopyInBounds (btJournalOpen file syncIntervalMs) as ↔
      Along step FlushFrees (btJournalOpen file syncIntervalMs) as := by
  have hkeep : ∀ (s : Sys ι) (a : Act ι) (s' : Sys ι), Fits s.buf s.worker →
      FlushFrees s a → step s a = some s' → Fits s'.buf s'.worker := fun s a s' => step_fits
  refine throughout_iff_of_invariant hkeep (fun s => copyInBounds_of_fits) (fun s a hs h => ?_)
    (by trivial)
  cases a with
  | work env =>
      intro d entry n hw hr
      obtain ⟨s', hstep, hcopy, hbuf⟩ := step_of_failing_write hw hr
      have hin := h s' hstep d entry hcopy
      rw [hbuf, List.length_drop] at hin
      omega
  | append p entry => trivial
  | push p => trivial
  | flush => trivial
  | stop => trivial
  | join => trivial

end Step

/-! ### A full disk -/

/-- One thread appends an entry, and the worker starts a batch and pops it. -/
def appendAndPop : List (Act Unit) :=
  [.append () (.fill 1), .push (), .push (), .push (), .push (),
    .work calm, .work calm, .work calm, .work calm, .work calm]

/-- The worker copies the entry and finds the ring empty. -/
def copyAndEnd : List (Act Unit) := [.work calm, .work calm, .work calm, .work calm]

/-- The ring is empty with nobody inside a call, and its cursors have passed `k` entries. -/
structure RingIdle (k : ℕ) (ring : Spsc.Sys Unit JournalEntry) : Prop where
  head : ring.q.head = k % ringCapacity.slots
  tail : ring.q.tail = k % ringCapacity.slots
  mask : ring.q.mask = ringCapacity.mask
  push : ring.push () = .idle
  pop : ring.pop = .loadHead

/-- Between two rounds: the worker is at the head of its loop, and `k` entries are in the buffer. -/
structure Between (k : ℕ) (s : Sys Unit) : Prop where
  main : s.main = .up
  running : s.running = true
  worker : s.worker = .loop
  buf : s.buf.length = sizeofJournalEntry * k
  ring : RingIdle k s.ring

/-- The worker has popped the entry after `k` others. -/
structure Popped (k : ℕ) (s : Sys Unit) : Prop where
  main : s.main = .up
  running : s.running = true
  worker : s.worker = .got 0 (.fill 1)
  buf : s.buf.length = sizeofJournalEntry * k
  ring : RingIdle (k + 1) s.ring

theorem next_ne_self (k : ℕ) : (k + 1) % ringCapacity.slots ≠ k % ringCapacity.slots := by
  intro heq
  have htwo := ringCapacity.two_le_slots
  have := (ringCapacity.next_eq_iff_full le_rfl (by omega)).1 heq
  omega

theorem appendAndPop_pops {k : ℕ} {s : Sys Unit} (h : Between k s) :
    ∃ s', run step s appendAndPop = some s' ∧ Popped k s' := by
  obtain ⟨⟨⟨head, tail, buffer, mask⟩, push, pop, pushed, popped⟩, running, written, dropped,
    flushed, ms, file, worker, buf, lastSync, main, base⟩ := s
  obtain ⟨rfl, rfl, rfl, hbuf, ⟨rfl, rfl, rfl, hpush, rfl⟩⟩ := h
  have hfull := next_ne_self k
  have hempty := hfull.symm
  change push () = .idle at hpush
  simp only [appendAndPop, run, step, Spsc.step, hpush, spscPushStep, workerStep, workerPop,
    spscPopStep, ringPopStep, droppedAfter, returned, hfull, hempty, Capacity.next_index,
    journalBatchDrain, if_true, Option.map_some, Function.update_self, ne_eq, not_false_eq_true,
    List.map_nil, List.append_nil, Nat.zero_lt_succ]
  exact ⟨_, rfl, rfl, rfl, rfl, hbuf, rfl, rfl, rfl, by simp, rfl⟩

theorem copyAndEnd_copies {k : ℕ} {s : Sys Unit} (h : Popped k s)
    (hk : sizeofJournalEntry * (k + 1) ≤ btCfgJournalBufSize) :
    ∃ s', run step s copyAndEnd = some s' ∧ Between (k + 1) s' := by
  obtain ⟨⟨⟨head, tail, buffer, mask⟩, push, pop, pushed, popped⟩, running, written, dropped,
    flushed, ms, file, worker, buf, lastSync, main, base⟩ := s
  obtain ⟨rfl, rfl, rfl, hbuf, ⟨rfl, rfl, rfl, hpush, rfl⟩⟩ := h
  change buf.length = sizeofJournalEntry * k at hbuf
  rw [Nat.mul_succ, ← hbuf] at hk
  simp only [copyAndEnd, run, step, workerStep, workerPop, spscPopStep, ringPopStep, returned,
    if_pos hk, if_neg (Nat.not_lt.2 hk), journalBatchDrain, afterBatch, ne_eq, not_true_eq_false,
    if_false, Nat.reduceAdd, Nat.reduceLT, if_true, Nat.reduceEqDiff, List.append_nil]
  refine ⟨_, rfl, rfl, rfl, rfl, ?_, rfl, rfl, rfl, hpush, rfl⟩
  change (buf ++ (JournalEntry.fill 1).bytes).length = _
  rw [List.length_append, hbuf, (JournalEntry.fill 1).size, Nat.mul_succ]

/-- **A round adds one entry to the buffer.** -/
theorem round_fills {k : ℕ} {s : Sys Unit} (h : Between k s)
    (hk : sizeofJournalEntry * (k + 1) ≤ btCfgJournalBufSize) :
    ∃ s', run step s (appendAndPop ++ copyAndEnd) = some s' ∧ Between (k + 1) s' := by
  obtain ⟨s₁, hrun, hs₁⟩ := appendAndPop_pops h
  obtain ⟨s₂, hrun', hs₂⟩ := copyAndEnd_copies hs₁ hk
  exact ⟨s₂, by rw [run_append_eq hrun, hrun'], hs₂⟩

/-- The start of the worker and `k` rounds. -/
def rounds : ℕ → List (Act Unit)
  | 0 => [.work calm]
  | k + 1 => rounds k ++ (appendAndPop ++ copyAndEnd)

theorem rounds_fill (file : List UInt8) (ms : ℤ) (k : ℕ)
    (hk : sizeofJournalEntry * k ≤ btCfgJournalBufSize) :
    ∃ s, run step (btJournalOpen file ms) (rounds k) = some s ∧ Between k s := by
  induction k with
  | zero => exact ⟨_, rfl, rfl, rfl, rfl, rfl, rfl, rfl, rfl, rfl, rfl⟩
  | succ k ih =>
      obtain ⟨s, hrun, hs⟩ := ih (by rw [Nat.mul_succ] at hk; omega)
      obtain ⟨s', hrun', hs'⟩ := round_fills hs hk
      exact ⟨s', by rw [rounds, run_append_eq hrun, hrun'], hs'⟩

/-- The number of entries that fit into the buffer. -/
def bufEntries : ℕ := btCfgJournalBufSize / sizeofJournalEntry

/-- The buffer is filled up, one more entry is popped, and the disk is full when it is flushed. -/
def fullDiskRun : List (Act Unit) :=
  rounds bufEntries ++ (appendAndPop ++ [.work calm, .work { calm with write := .error }])

/-- The worker is then about to copy an entry past the end of its buffer. -/
theorem full_disk_overruns_buffer :
    ∃ s, run step (btJournalOpen [] 1) fullDiskRun = some s ∧ s.worker = .copy 0 (.fill 1) ∧
      btCfgJournalBufSize < s.buf.length + sizeofJournalEntry ∧ ¬ CopyInBounds s := by
  obtain ⟨s₁, hrun₁, hs₁⟩ := rounds_fill [] 1 bufEntries (by decide)
  obtain ⟨s₂, hrun₂, hs₂⟩ := appendAndPop_pops hs₁
  have hover : btCfgJournalBufSize < s₂.buf.length + sizeofJournalEntry := by
    rw [hs₂.buf]
    decide
  have hflush : run step s₂ [.work calm] =
      some { s₂ with worker := .flush (.capacity 0 (.fill 1)) 0 } := by
    have hpos : 0 < s₂.buf.length := by
      rw [hs₂.buf]
      decide
    simp only [run, step, workerStep, hs₂.worker, if_pos hover, enterFlush_of_pos hpos]
  have hfail : ({ calm with write := .error } : WorkerEnv).write.fails := trivial
  obtain ⟨s₃, hstep, hcopy, hbuf⟩ := step_of_failing_write
    (s := { s₂ with worker := .flush (.capacity 0 (.fill 1)) 0 }) rfl hfail
  have hbuf' : s₃.buf = s₂.buf := hbuf
  rw [← hbuf'] at hover
  refine ⟨s₃, ?_, hcopy, hover, fun h => ?_⟩
  · rw [fullDiskRun, run_append_eq hrun₁, run_append_eq hrun₂, ← List.singleton_append,
      run_append_eq hflush, run_cons_eq hstep, run_nil]
  · have := h 0 (.fill 1) hcopy
    omega

end Journal
