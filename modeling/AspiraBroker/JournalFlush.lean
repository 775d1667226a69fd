/-
**What a flush of the journal does to its buffer.**

`journal_do_flush` offers the filled part of the write buffer to `write` again and again, past
interrupted calls and short counts, until everything is written or a call fails or writes nothing.
What is left then is moved to the front of the buffer, over the bytes that were written.  The
machine of `Journal.lean` takes that function one call of `write` at a time and keeps the filled
part of the buffer as a list; here it is the whole function, on the memory behind `buf`.

What `write` answers is up to a kernel that writes no more than it is asked to and interrupts only
finitely many calls, so the loop ends.

Main definitions:

* `Journal.Kernel` — the answers to the calls of `write`;
* `Journal.writeLoop`, `Journal.journalDoFlush` — the loop and the function.

Main results:

* `Journal.writeLoop_spec` — the loop appends the bytes it counts;
* `Journal.flush_conserves_bytes` — **no byte is lost, repeated or reordered**;
* `Journal.offset_journalDoFlush` — the buffer is empty afterwards unless a call failed;
* `Journal.run_enterFlush` — the worker of the machine flushes as the function does.
-/

import AspiraBroker.Journal
import AspiraBroker.RingWindow

set_option relaxedAutoImplicit false
set_option autoImplicit false

namespace Journal

open Ring Transition

universe v

variable {ι : Type v}

/-! ### The function -/

/-- What the calls of `write` during one flush return, by the number of the call and the count that
it asks for.  No more is written than that, and from some call on none is interrupted. -/
structure Kernel where
  answer : ℕ → ℕ → WriteResult
  quiet : ℕ
  wrote_le : ∀ {i asked n : ℕ}, answer i asked = .wrote n → n ≤ asked
  not_eintr : ∀ {i asked : ℕ}, quiet ≤ i → answer i asked ≠ .eintr

/-- What a flush works on: the file, the memory at `buf` with `*offset`, the counters of the
journal, and how often `fdatasync` was called. -/
structure FlushState where
  file : List UInt8
  buf : ℕ → UInt8
  offset : ℕ
  written : UInt64
  flushed : UInt64
  syncs : ℕ

/-- `memmove`: the source is read before the destination is written. -/
def memmove (mem : ℕ → UInt8) (dst src n : ℕ) : ℕ → UInt8 := fill mem dst (slice mem src n)

/-- The loop of `journal_do_flush`, before call `i` of `write`: the file and `written_total` at its
end. -/
def writeLoop (K : Kernel) (buf : ℕ → UInt8) (toWrite i writtenTotal : ℕ) (file : List UInt8) :
    List UInt8 × ℕ :=
  if writtenTotal < toWrite then
    match h : K.answer i (toWrite - writtenTotal) with
    | .eintr => writeLoop K buf toWrite (i + 1) writtenTotal file
    | .error => (file, writtenTotal)
    | .wrote n =>
        if n = 0 then (file, writtenTotal)
        else writeLoop K buf toWrite (i + 1) (writtenTotal + n) (file ++ slice buf writtenTotal n)
  else (file, writtenTotal)
termination_by (toWrite - writtenTotal) + (K.quiet - i)
decreasing_by
  · have hi : i < K.quiet := Nat.not_le.1 fun hle => K.not_eintr hle h
    omega
  · omega

/-- The counters of the journal after the loop, if it has written anything; the file is synced if
the caller and the journal want it. -/
def FlushState.count (s : FlushState) (doSync : Bool) (syncIntervalMs : ℤ) (writtenTotal : ℕ) :
    FlushState :=
  if 0 < writtenTotal then
    { s with
      syncs := if doSync = true ∧ 0 < syncIntervalMs then s.syncs + 1 else s.syncs
      written := s.written + 1
      flushed := s.flushed + UInt64.ofNat writtenTotal }
  else s

/-- The buffer after a loop that was to write all of it: what was not written goes to its front. -/
def FlushState.moveRemainder (s : FlushState) (writtenTotal : ℕ) : FlushState :=
  if writtenTotal < s.offset then
    let remainder := s.offset - writtenTotal
    { s with buf := memmove s.buf 0 writtenTotal remainder, offset := remainder }
  else { s with offset := 0 }

/-- `journal_do_flush`. -/
def journalDoFlush (K : Kernel) (doSync : Bool) (syncIntervalMs : ℤ) (s : FlushState) :
    FlushState :=
  if s.offset = 0 then s
  else
    let (file, writtenTotal) := writeLoop K s.buf s.offset 0 0 s.file
    ({ s with file := file }.count doSync syncIntervalMs writtenTotal).moveRemainder writtenTotal

/-! ### The loop -/

/-- **The loop appends the bytes it counts**, the next ones of the buffer, and never more than it
was to write. -/
theorem writeLoop_spec (K : Kernel) (buf : ℕ → UInt8) (toWrite i writtenTotal : ℕ)
    (file : List UInt8) (hle : writtenTotal ≤ toWrite) :
    ∃ n, writeLoop K buf toWrite i writtenTotal file =
        (file ++ slice buf writtenTotal n, writtenTotal + n) ∧ writtenTotal + n ≤ toWrite := by
  have hstop : ∀ {wt : ℕ} {file : List UInt8}, wt ≤ toWrite →
      ∃ n, (file, wt) = (file ++ slice buf wt n, wt + n) ∧ wt + n ≤ toWrite :=
    fun h => ⟨0, by simp [slice], h⟩
  fun_induction writeLoop K buf toWrite i writtenTotal file with
  | case1 i wt file hlt h ih => exact ih hle
  | case2 i wt file hlt h => exact hstop hle
  | case3 i wt file hlt h => exact hstop hle
  | case4 i wt file hlt n h hn ih =>
      have hcount := K.wrote_le h
      obtain ⟨m, heq, hm⟩ := ih (by omega)
      refine ⟨n + m, ?_, by omega⟩
      rw [heq, slice_add, List.append_assoc, Nat.add_assoc]
  | case5 i wt file hlt => exact hstop hle

/-- The loop ends before everything is written only if a call fails or writes nothing. -/
theorem writeLoop_complete {K : Kernel}
    (hgood : ∀ i asked, 0 < asked → K.answer i asked ≠ .error ∧ K.answer i asked ≠ .wrote 0)
    (buf : ℕ → UInt8) (toWrite i writtenTotal : ℕ) (file : List UInt8)
    (hle : writtenTotal ≤ toWrite) :
    (writeLoop K buf toWrite i writtenTotal file).2 = toWrite := by
  fun_induction writeLoop K buf toWrite i writtenTotal file with
  | case1 i wt file hlt h ih => exact ih hle
  | case2 i wt file hlt h => exact absurd h (hgood _ _ (by omega)).1
  | case3 i wt file hlt h => exact absurd h (hgood _ _ (by omega)).2
  | case4 i wt file hlt n h hn ih =>
      have hcount := K.wrote_le h
      exact ih (by omega)
  | case5 i wt file hlt => exact Nat.le_antisymm hle (Nat.not_lt.1 hlt)

/-! ### The flush -/

/-- What a flush that writes `n` bytes does. -/
structure Flushes (s : FlushState) (n : ℕ) (s' : FlushState) : Prop where
  le : n ≤ s.offset
  file : s'.file = s.file ++ slice s.buf 0 n
  offset : s'.offset = s.offset - n
  left : slice s'.buf 0 s'.offset = slice s.buf n (s.offset - n)
  beyond : ∀ j, s.offset ≤ j → s'.buf j = s.buf j
  written : s'.written = if 0 < n then s.written + 1 else s.written
  flushed : s'.flushed = s.flushed + UInt64.ofNat n

/-- The bytes that are moved to the front of the buffer are those that were not written. -/
theorem slice_memmove (mem : ℕ → UInt8) (src n : ℕ) :
    slice (memmove mem 0 src n) 0 n = slice mem src n := by
  rw [memmove, slice_fill (length_slice _ _ _).ge, List.take_of_length_le (length_slice _ _ _).le]

theorem memmove_of_le {mem : ℕ → UInt8} {src n j : ℕ} (h : n ≤ j) :
    memmove mem 0 src n j = mem j :=
  fill_of_le (by rw [length_slice]; omega)

/-- A flush of `n` bytes in its two parts: the bytes that go to the file and into the counters, and
those that stay. -/
theorem flushes_moveRemainder {s s₁ : FlushState} {n : ℕ} (hn : n ≤ s.offset)
    (hfile : s₁.file = s.file ++ slice s.buf 0 n) (hbuf : s₁.buf = s.buf)
    (hoffset : s₁.offset = s.offset)
    (hwritten : s₁.written = if 0 < n then s.written + 1 else s.written)
    (hflushed : s₁.flushed = s.flushed + UInt64.ofNat n) :
    Flushes s n (s₁.moveRemainder n) := by
  unfold FlushState.moveRemainder
  split
  case isTrue hshort =>
    refine ⟨hn, hfile, congrArg (· - n) hoffset, ?_, ?_, hwritten, hflushed⟩
    · change slice (memmove s₁.buf 0 n (s₁.offset - n)) 0 (s₁.offset - n) = _
      rw [slice_memmove, hbuf, hoffset]
    · intro j hj
      change memmove s₁.buf 0 n (s₁.offset - n) j = _
      rw [memmove_of_le (by omega), hbuf]
  case isFalse hall =>
    have hzero : s.offset - n = 0 := by omega
    refine ⟨hn, hfile, hzero.symm, ?_, fun j _ => congrFun hbuf j, hwritten, hflushed⟩
    rw [hzero]
    rfl

section Flush

variable (K : Kernel) (doSync : Bool) (syncIntervalMs : ℤ)

/-- A flush writes as many bytes as its loop counts. -/
theorem flushes_journalDoFlush (s : FlushState) :
    Flushes s (writeLoop K s.buf s.offset 0 0 s.file).2
      (journalDoFlush K doSync syncIntervalMs s) := by
  obtain ⟨n, hloop, hn⟩ := writeLoop_spec K s.buf s.offset 0 0 s.file (Nat.zero_le _)
  rw [Nat.zero_add] at hloop hn
  simp only [journalDoFlush, hloop]
  split
  case isTrue hzero =>
    obtain rfl : n = 0 := by omega
    refine ⟨hn, (List.append_nil _).symm, rfl, rfl, fun _ _ => rfl, rfl, (UInt64.add_zero _).symm⟩
  case isFalse hpos =>
    unfold FlushState.count
    split
    case isTrue hsome =>
      exact flushes_moveRemainder hn rfl rfl rfl (if_pos hsome).symm rfl
    case isFalse hnone =>
      obtain rfl : n = 0 := by omega
      exact flushes_moveRemainder hn rfl rfl rfl rfl (UInt64.add_zero _).symm

/-- **No byte is lost, repeated or reordered by a flush**: what it appends to the file, followed by
what it leaves in the buffer, is what the buffer held; `flushed` grows by what was appended, and the
buffer does not get longer. -/
theorem flush_conserves_bytes (s : FlushState) :
    ∃ appended,
      (journalDoFlush K doSync syncIntervalMs s).file = s.file ++ appended ∧
      appended ++ slice (journalDoFlush K doSync syncIntervalMs s).buf 0
        (journalDoFlush K doSync syncIntervalMs s).offset = slice s.buf 0 s.offset ∧
      (journalDoFlush K doSync syncIntervalMs s).flushed =
        s.flushed + UInt64.ofNat appended.length ∧
      (journalDoFlush K doSync syncIntervalMs s).offset ≤ s.offset := by
  have h := flushes_journalDoFlush K doSync syncIntervalMs s
  refine ⟨_, h.file, ?_, ?_, ?_⟩
  · rw [h.left]
    exact slice_append_rest h.le
  · rw [h.flushed, length_slice]
  · rw [h.offset]
    exact Nat.sub_le _ _

/-- **The buffer is empty after a flush** none of whose calls of `write` fails or writes nothing. -/
theorem offset_journalDoFlush
    (hgood : ∀ i asked, 0 < asked → K.answer i asked ≠ .error ∧ K.answer i asked ≠ .wrote 0)
    (s : FlushState) : (journalDoFlush K doSync syncIntervalMs s).offset = 0 := by
  rw [(flushes_journalDoFlush K doSync syncIntervalMs s).offset,
    writeLoop_complete hgood _ _ _ _ _ (Nat.zero_le _), Nat.sub_self]

end Flush

/-! ### The worker of the machine -/

/-- The machine and the function say the same of the file, the buffer and the counters. -/
structure Agrees (s : Sys ι) (t : FlushState) : Prop where
  file : s.file = t.file
  buf : s.buf = slice t.buf 0 t.offset
  written : UInt64.ofNat s.written = t.written
  flushed : UInt64.ofNat s.flushed = t.flushed

/-- The end of the machine's flush is that of the function. -/
theorem agrees_flushDone {s : Sys ι} {t t' : FlushState} {n : ℕ} (h : Agrees s t)
    (hf : Flushes t n t') : Agrees (flushDone { s with file := t'.file } n) t' := by
  refine ⟨rfl, ?_, ?_, ?_⟩
  · change s.buf.drop n = _
    rw [h.buf, hf.left, ← slice_append_rest hf.le, List.drop_left' (length_slice _ _ _)]
  · change UInt64.ofNat (if 0 < n then s.written + 1 else s.written) = _
    rw [hf.written, ← h.written]
    split
    · exact UInt64.ofNat_add _ _
    · rfl
  · change UInt64.ofNat (if 0 < n then s.flushed + n else s.flushed) = _
    rw [hf.flushed, ← h.flushed, ← UInt64.ofNat_add]
    split
    · rfl
    · obtain rfl : n = 0 := by omega
      rfl

/-- The machine behind a flush that has put `total` bytes into the file. -/
def flushEnd (s : Sys ι) (r : List UInt8 × ℕ) (now : UInt64) (site : FlushSite) : Sys ι :=
  afterFlush (flushDone { s with file := r.1 } r.2) now site

/-- It does not depend on how far the flush had come before. -/
theorem flushEnd_of_flush (s : Sys ι) (file : List UInt8) (pc : WorkerPc) (r : List UInt8 × ℕ)
    (now : UInt64) (site : FlushSite) :
    flushEnd { s with file := file, worker := pc } r now site = flushEnd s r now site := by
  cases site <;> rfl

variable [DecidableEq ι]

/-- A call of `write` after which the loop goes on. -/
theorem step_writeMore {s : Sys ι} {site : FlushSite} {done total : ℕ} {file : List UInt8}
    (hw : s.worker = .flush site done) {env : WorkerEnv}
    (hf : flushWrite s.file s.buf done env.write = some (file, total, true)) :
    step s (.work env) = some { s with file := file, worker := .flush site total } := by
  simp only [step, workerStep, hw, hf]

/-- A call of `write` that ends the loop. -/
theorem step_writeEnd {s : Sys ι} {site : FlushSite} {done total : ℕ} {file : List UInt8}
    (hw : s.worker = .flush site done) {env : WorkerEnv}
    (hf : flushWrite s.file s.buf done env.write = some (file, total, false)) :
    step s (.work env) = some (flushEnd s (file, total) env.now site) := by
  simp only [step, workerStep, hw, hf]
  rfl

/-- The worker goes through the loop as the function does. -/
theorem run_writeLoop (K : Kernel) (buf : ℕ → UInt8) (toWrite i done : ℕ) (file : List UInt8)
    (now : UInt64) (site : FlushSite) {s : Sys ι} (hw : s.worker = .flush site done)
    (hbuf : s.buf = slice buf 0 toWrite) (hfile : s.file = file) (hlt : done < toWrite) :
    ∃ acts, run step s acts =
      some (flushEnd s (writeLoop K buf toWrite i done file) now site) := by
  fun_induction writeLoop K buf toWrite i done file generalizing s with
  | case1 i done file _ h ih =>
      obtain ⟨acts, hrun⟩ := ih (s := { s with worker := .flush site done }) rfl hbuf hfile hlt
      refine ⟨.work ⟨true, .eintr, now⟩ :: acts, ?_⟩
      rw [run_cons_eq (step_writeMore hw rfl)]
      exact hrun.trans (congrArg some (flushEnd_of_flush s s.file _ _ _ _))
  | case2 i done file _ h =>
      refine ⟨[.work ⟨true, .error, now⟩], ?_⟩
      rw [run_cons_eq (step_writeEnd hw rfl), hfile]
      rfl
  | case3 i done file _ h =>
      refine ⟨[.work ⟨true, .wrote 0, now⟩], ?_⟩
      have hf : flushWrite s.file s.buf done (.wrote 0) = some (s.file, done, false) := by
        simp [flushWrite]
      rw [run_cons_eq (step_writeEnd hw hf), hfile]
      rfl
  | case4 i done file _ n h hn ih =>
      have hcount := K.wrote_le h
      have hf : flushWrite s.file s.buf done (.wrote n) =
          some (file ++ slice buf done n, done + n, decide (done + n < toWrite)) := by
        rw [flushWrite, hbuf, length_slice, if_pos hcount, if_neg hn, hfile,
          take_drop_slice (by omega)]
      by_cases hmore : done + n < toWrite
      · rw [decide_eq_true hmore] at hf
        obtain ⟨acts, hrun⟩ := ih (s := { s with
          file := file ++ slice buf done n, worker := .flush site (done + n) }) rfl hbuf rfl hmore
        refine ⟨.work ⟨true, .wrote n, now⟩ :: acts, ?_⟩
        rw [run_cons_eq (step_writeMore hw hf)]
        exact hrun.trans (congrArg some (flushEnd_of_flush s _ _ _ _ _))
      · rw [decide_eq_false hmore] at hf
        refine ⟨[.work ⟨true, .wrote n, now⟩], ?_⟩
        rw [run_cons_eq (step_writeEnd hw hf), writeLoop, if_neg hmore]
        rfl
  | case5 i done file hend => exact absurd hlt hend

/-- **The worker flushes as the function does**: whatever the calls of `write` return, there is a
run of the machine from the call of `journal_do_flush` to its return that agrees with it. -/
theorem run_enterFlush (K : Kernel) (doSync : Bool) (syncIntervalMs : ℤ) (now : UInt64)
    (site : FlushSite) {s : Sys ι} {t : FlushState} (h : Agrees s t) :
    ∃ acts s', run step (enterFlush s now site) acts = some (afterFlush s' now site) ∧
      Agrees s' (journalDoFlush K doSync syncIntervalMs t) := by
  have hlen : s.buf.length = t.offset := by rw [h.buf, length_slice]
  have hflushes := flushes_journalDoFlush K doSync syncIntervalMs t
  rcases Nat.eq_zero_or_pos t.offset with hzero | hpos
  · refine ⟨[], s, ?_, ?_⟩
    · rw [enterFlush, if_pos (hlen.trans hzero)]
      rfl
    · rwa [journalDoFlush, if_pos hzero]
  · obtain ⟨n, hloop, -⟩ := writeLoop_spec K t.buf t.offset 0 0 t.file (Nat.zero_le _)
    obtain ⟨acts, hrun⟩ := run_writeLoop K t.buf t.offset 0 0 t.file now site
      (s := { s with worker := .flush site 0 }) rfl h.buf h.file hpos
    refine ⟨acts, _, ?_, agrees_flushDone h hflushes⟩
    rw [enterFlush_of_pos (hlen ▸ hpos), hrun, hflushes.file, hloop, Nat.zero_add]
    exact congrArg some (flushEnd_of_flush s s.file _ _ _ _)

end Journal
