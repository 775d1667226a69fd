/-
**What reaches the file of the journal.**

An entry that the worker has popped is in three places at most: in the file, in the write buffer, or
in the worker's local variable on its way to the buffer.  The bytes of the file followed by those of
the other two change only when an entry is popped, and then by exactly its bytes; short writes,
failing writes and the move of the rest to the front of the buffer leave them alone.

Main definitions:

* `Journal.unflushed` — the bytes the worker has popped and not yet written;
* `Journal.Conserved` — the file and the unflushed bytes are what the file held when the journal was
  opened, followed by the popped entries.

Main results:

* `Journal.step_stream` — a step adds to the file and the unflushed bytes exactly the bytes of the
  entries it pops;
* `Journal.step_conserved` — **no byte is lost, doubled or moved between the ring and the file**.
-/

import AspiraBroker.Journal

set_option relaxedAutoImplicit false
set_option autoImplicit false

namespace Journal

open LockfreeQueue Ring Transition

universe v

variable {ι : Type v}

/-! ### Bytes on their way to the file -/

/-- The entry that waits for a flush to end. -/
def FlushSite.waiting : FlushSite → List UInt8
  | .capacity _ entry => entry.bytes
  | .timer _ => []
  | .final => []

/-- The bytes the worker has popped and not yet written. -/
def unflushed (buf : List UInt8) : WorkerPc → List UInt8
  | .start => []
  | .failed => []
  | .got _ entry => buf ++ entry.bytes
  | .copy _ entry => buf ++ entry.bytes
  | .overrun entry => buf ++ entry.bytes
  | .flush site writtenTotal => buf.drop writtenTotal ++ site.waiting
  | .loop => buf
  | .drain _ => buf
  | .idle => buf
  | .exited => buf

@[simp] theorem unflushed_afterBatch (buf : List UInt8) (d : ℕ) :
    unflushed buf (afterBatch d) = buf := by
  unfold afterBatch
  split <;> rfl

/-- The file, followed by what is on its way to it. -/
def stream (s : Sys ι) : List UInt8 := s.file ++ unflushed s.buf s.worker

/-- The file and the unflushed bytes are `file₀` followed by the popped entries. -/
def Conserved (file₀ : List UInt8) (s : Sys ι) : Prop :=
  stream s = file₀ ++ serialize s.ring.popped

theorem btJournalOpen_conserved (file : List UInt8) (syncIntervalMs : ℤ) :
    Conserved file (btJournalOpen file syncIntervalMs : Sys ι) := by
  simp [Conserved, stream, btJournalOpen, unflushed, Spsc.init]

/-- Writing the next bytes of the buffer moves them to the file. -/
theorem write_stream (file buf : List UInt8) (done n : ℕ) :
    file ++ (buf.drop done).take n ++ buf.drop (done + n) = file ++ buf.drop done := by
  rw [List.append_assoc, ← List.drop_drop, List.take_append_drop]

/-- The end of a flush keeps what was not written, and the entry that waited for it. -/
theorem stream_afterFlush (s : Sys ι) (total : ℕ) (now : UInt64) (site : FlushSite) :
    stream (afterFlush (flushDone s total) now site) =
      s.file ++ (s.buf.drop total ++ site.waiting) := by
  cases site with
  | capacity d entry => rfl
  | timer t => simp [stream, afterFlush, flushDone, unflushed, FlushSite.waiting]
  | final => simp [stream, afterFlush, flushDone, unflushed, FlushSite.waiting]

section Step

variable [DecidableEq ι] {s s' : Sys ι}

/-- **A step adds to the stream exactly the bytes of the entries it pops.** -/
theorem step_stream {a : Act ι} (h : step s a = some s') :
    ∃ es, s'.ring.popped = s.ring.popped ++ es ∧ stream s' = stream s ++ serialize es := by
  have quiet : s'.ring.popped = s.ring.popped → stream s' = stream s →
      ∃ es, s'.ring.popped = s.ring.popped ++ es ∧ stream s' = stream s ++ serialize es :=
    fun hp hb => ⟨[], by simp [hp], by simp [hb]⟩
  cases steps_of_step h with
  | append hm hring => exact quiet (Spsc.popped_call hring) rfl
  | push hring => exact quiet (Spsc.popped_push hring) rfl
  | alloc hw hm => exact quiet rfl (by simp [stream, unflushed, hw])
  | allocFail hw hm => exact quiet rfl (by simp [stream, unflushed, hw])
  | loopOn hw hr => exact quiet rfl (by simp [stream, unflushed, hw])
  | loopFlush hw hr hb =>
      exact quiet rfl (by simp [stream, unflushed, hw, FlushSite.waiting])
  | loopExit hw hr hb => exact quiet rfl (by simp [stream, unflushed, hw])
  | popWait hw hpop hp => exact quiet hp (by simp [stream, unflushed, hw])
  | popEmpty hw hpop hp =>
      exact quiet hp (by simp only [stream, unflushed_afterBatch, hw]; rfl)
  | @popEntry env d entry ring hw hpop hp =>
      exact ⟨[entry], hp, by simp [stream, unflushed, hw]⟩
  | batchFull hw hd =>
      exact quiet rfl (by simp only [stream, unflushed_afterBatch, hw]; rfl)
  | capFlush hw hb => exact quiet rfl (by simp [stream, unflushed, hw, FlushSite.waiting])
  | capOk hw hb => exact quiet rfl (by simp [stream, unflushed, hw])
  | copyIn hw hb => exact quiet rfl (by simp [stream, unflushed, hw])
  | copyOver hw hb => exact quiet rfl (by simp [stream, unflushed, hw])
  | timerFlush hw hb => exact quiet rfl (by simp [stream, unflushed, hw, FlushSite.waiting])
  | timerSkip hw => exact quiet rfl (by simp [stream, unflushed, hw])
  | @writeMore env site done total file hw hf =>
      obtain ⟨n, rfl, rfl, -⟩ := flushWrite_file hf
      refine quiet rfl ?_
      simp only [stream, unflushed, hw]
      rw [← List.append_assoc, write_stream, List.append_assoc]
  | @writeEnd env site done total file hw hf =>
      obtain ⟨n, rfl, rfl, -⟩ := flushWrite_file hf
      refine quiet (by simp [flushDone]) ?_
      rw [stream_afterFlush]
      simp only [stream, unflushed, hw]
      rw [← List.append_assoc, write_stream, List.append_assoc]
  | flush hm => exact quiet rfl rfl
  | stop hm => exact quiet rfl rfl
  | join hm hret => exact quiet rfl rfl

/-- **No byte is lost, doubled or moved** between the ring and the file. -/
theorem step_conserved {file₀ : List UInt8} {a : Act ι} (hs : Conserved file₀ s)
    (h : step s a = some s') : Conserved file₀ s' := by
  obtain ⟨es, hp, hb⟩ := step_stream h
  rw [Conserved, hb, hs, hp, serialize_append, List.append_assoc]

end Step

end Journal
