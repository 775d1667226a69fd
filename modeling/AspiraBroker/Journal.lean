/-
**The append-only journal, one step at a time.**

`journal.c` puts a ring between the threads that append entries and one worker thread that drains
them into a write buffer and flushes the buffer to a file.  The machine of this module interleaves
any number of appenders, the worker, and the thread that shuts the journal down.  An appender moves
one atomic step of its `BT_SPSC_PUSH` at a time and the worker one atomic step of its `BT_SPSC_POP`;
of the worker's own code a step is a load of the stop flag, a test, a copy into the buffer, or one
call of `write`, whose result the environment chooses.

Main definitions:

* `Journal.JournalEntry` — the bytes of a `bt_journal_entry_t`;
* `Journal.WorkerPc`, `Journal.FlushSite` — where the worker stands, inside a flush and outside;
* `Journal.flushWrite`, `Journal.flushDone` — the loop of `journal_do_flush` and its end;
* `Journal.workerStep` — `bt_journal_thread_core`;
* `Journal.Sys`, `Journal.Act`, `Journal.step` — the machine;
* `Journal.btJournalOpen` — the state after `bt_journal_open`.

Main results:

* `Journal.steps_of_step` — everything a step can do.
-/

import AspiraBroker.SpscQueue

set_option relaxedAutoImplicit false
set_option autoImplicit false

namespace Journal

open LockfreeQueue Ring Transition

universe v

variable {ι : Type v}

/-! ### Constants and entries -/

/-- `JOURNAL_RING_SIZE`, `262144` slots. -/
def ringCapacity : Capacity := ⟨18, by decide⟩

/-- `JOURNAL_BATCH_DRAIN`. -/
def journalBatchDrain : ℕ := 64

/-- `BT_CFG_JOURNAL_BUF_SIZE`. -/
def btCfgJournalBufSize : ℕ := 16 * 1024 * 1024

/-- `sizeof(bt_journal_entry_t)`: the version and the reserved word, the sequence number, the type
with its padding, the timestamp, the checksum and the union of an order and a trade. -/
def sizeofJournalEntry : ℕ := 4 + 4 + 8 + (4 + 4) + 8 + 8 + 64

/-- A `bt_journal_entry_t`, as the journal sees it: that many bytes. -/
structure JournalEntry where
  bytes : List UInt8
  size : bytes.length = sizeofJournalEntry
  deriving DecidableEq

/-- The entry whose bytes are all `b`; the ring is allocated with zero entries. -/
def JournalEntry.fill (b : UInt8) : JournalEntry := ⟨List.replicate sizeofJournalEntry b, by simp⟩

/-- The bytes of a list of entries, one after the other. -/
def serialize (es : List JournalEntry) : List UInt8 := (es.map JournalEntry.bytes).flatten

@[simp] theorem serialize_nil : serialize [] = [] := rfl

@[simp] theorem serialize_append (es fs : List JournalEntry) :
    serialize (es ++ fs) = serialize es ++ serialize fs := by
  simp [serialize]

@[simp] theorem serialize_singleton (e : JournalEntry) : serialize [e] = e.bytes := by
  simp [serialize]

@[simp] theorem length_serialize (es : List JournalEntry) :
    (serialize es).length = sizeofJournalEntry * es.length := by
  induction es with
  | nil => simp
  | cons e es ih =>
      have h : serialize (e :: es) = e.bytes ++ serialize es := by simp [serialize]
      rw [h, List.length_append, e.size, ih, List.length_cons, Nat.mul_succ, Nat.add_comm]

/-! ### The worker -/

/-- Which of its three calls of `journal_do_flush` the worker is in: the capacity flush before the
copy of an entry, the timer flush at a clock reading, or the final flush. -/
inductive FlushSite
  | capacity (drained : ℕ) (entry : JournalEntry)
  | timer (now : UInt64)
  | final

/-- Where the worker stands in `bt_journal_thread_core`.  Inside a pop the ring keeps the exact
place; `overrun` is the copy of an entry past the end of the buffer, after which nothing is
promised. -/
inductive WorkerPc
  | start
  | loop
  | drain (drained : ℕ)
  | got (drained : ℕ) (entry : JournalEntry)
  | flush (site : FlushSite) (writtenTotal : ℕ)
  | copy (drained : ℕ) (entry : JournalEntry)
  | idle
  | exited
  | failed
  | overrun (entry : JournalEntry)

/-- What a call of `write` returns: a count, the error `EINTR`, or another error. -/
inductive WriteResult
  | wrote (n : ℕ)
  | eintr
  | error

/-- Everything the environment decides in one step of the worker: whether `malloc` succeeds, what
`write` returns, what the clock shows. -/
structure WorkerEnv where
  mallocOk : Bool
  write : WriteResult
  now : UInt64

/-- The choices of an environment in which nothing fails and the clock stands still. -/
def calm : WorkerEnv := ⟨true, .eintr, 0⟩

/-- The thread that owns the journal: it is up, it has cleared the stop flag and waits for the
worker, it has closed the file. -/
inductive MainPc
  | up
  | stopping
  | closed
  deriving DecidableEq

/-- The journal, its file, the threads, and the write buffer, of which only the first `buf_offset`
bytes are kept.  `base` is the length the file had when the journal was opened. -/
structure Sys (ι : Type v) where
  ring : Spsc.Sys ι JournalEntry
  running : Bool
  written : ℕ
  dropped : ℕ
  flushed : ℕ
  syncIntervalMs : ℤ
  file : List UInt8
  worker : WorkerPc
  buf : List UInt8
  lastSync : UInt64
  main : MainPc
  base : ℕ

/-- `bt_journal_open` on a file with the given contents: the file is opened for appending and keeps
what it holds. -/
def btJournalOpen (file : List UInt8) (syncIntervalMs : ℤ) : Sys ι where
  ring := Spsc.init ringCapacity fun _ => .fill 0
  running := true
  written := 0
  dropped := 0
  flushed := 0
  syncIntervalMs := syncIntervalMs
  file := file
  worker := .start
  buf := []
  lastSync := 0
  main := .up
  base := file.length

/-- One call of `write` in the loop of `journal_do_flush`, with `writtenTotal` bytes of the buffer
written before: the file, the bytes written after, and whether the loop goes on.  A count above what
was asked for is not possible. -/
def flushWrite (file buf : List UInt8) (writtenTotal : ℕ) :
    WriteResult → Option (List UInt8 × ℕ × Bool)
  | .eintr => some (file, writtenTotal, true)
  | .error => some (file, writtenTotal, false)
  | .wrote n =>
      if n ≤ buf.length - writtenTotal then
        if n = 0 then some (file, writtenTotal, false)
        else some (file ++ (buf.drop writtenTotal).take n, writtenTotal + n,
          decide (writtenTotal + n < buf.length))
      else none

/-- The end of `journal_do_flush`: the counters, and the bytes that were not written moved to the
front of the buffer. -/
def flushDone (s : Sys ι) (writtenTotal : ℕ) : Sys ι :=
  { s with
    written := if 0 < writtenTotal then s.written + 1 else s.written
    flushed := if 0 < writtenTotal then s.flushed + writtenTotal else s.flushed
    buf := s.buf.drop writtenTotal }

/-- Where the worker goes on after a flush. -/
def afterFlush (s : Sys ι) (now : UInt64) : FlushSite → Sys ι
  | .capacity drained entry => { s with lastSync := now, worker := .copy drained entry }
  | .timer t => { s with lastSync := t, worker := .loop }
  | .final => { s with worker := .exited }

/-- The call of `journal_do_flush`, which returns at once on an empty buffer. -/
def enterFlush (s : Sys ι) (now : UInt64) (site : FlushSite) : Sys ι :=
  if s.buf.length = 0 then afterFlush s now site else { s with worker := .flush site 0 }

/-- Where the worker goes on after a batch: an empty batch takes the idle branch. -/
def afterBatch (drained : ℕ) : WorkerPc := if drained = 0 then .idle else .loop

/-- `sync_ns`, the sync interval in nanoseconds as an unsigned number. -/
def syncNs (s : Sys ι) : UInt64 := UInt64.ofInt s.syncIntervalMs * 1000000

/-- One step of a pop of the worker: the ring after it and what the pop returns. -/
def workerPop (ring : Spsc.Sys ι JournalEntry) : Spsc.Sys ι JournalEntry × Outcome JournalEntry :=
  let r := spscPopStep ring.q ring.pop
  ({ ring with q := r.1, pop := r.2.1, popped := ring.popped ++ returned r.2.2 }, r.2.2)

/-- One step of `bt_journal_thread_core`. -/
def workerStep (env : WorkerEnv) (s : Sys ι) : Option (Sys ι) :=
  match s.worker with
  | .start =>
      if env.mallocOk then some { s with buf := [], lastSync := env.now, worker := .loop }
      else some { s with worker := .failed }
  | .loop =>
      if s.running then some { s with worker := .drain 0 }
      else if 0 < s.buf.length then some (enterFlush s env.now .final)
      else some { s with worker := .exited }
  | .drain drained =>
      if drained < journalBatchDrain then
        match (workerPop s.ring).2 with
        | .pending => some { s with ring := (workerPop s.ring).1 }
        | .fail => some { s with ring := (workerPop s.ring).1, worker := afterBatch drained }
        | .done entry => some { s with ring := (workerPop s.ring).1, worker := .got drained entry }
      else some { s with worker := afterBatch drained }
  | .got drained entry =>
      if btCfgJournalBufSize < s.buf.length + sizeofJournalEntry then
        some (enterFlush s env.now (.capacity drained entry))
      else some { s with worker := .copy drained entry }
  | .copy drained entry =>
      if s.buf.length + sizeofJournalEntry ≤ btCfgJournalBufSize then
        some { s with buf := s.buf ++ entry.bytes, worker := .drain (drained + 1) }
      else some { s with worker := .overrun entry }
  | .idle =>
      if 0 < s.buf.length ∧ syncNs s ≤ env.now - s.lastSync then
        some (enterFlush s env.now (.timer env.now))
      else some { s with worker := .loop }
  | .flush site writtenTotal =>
      match flushWrite s.file s.buf writtenTotal env.write with
      | none => none
      | some (file, total, true) => some { s with file := file, worker := .flush site total }
      | some (file, total, false) =>
          some (afterFlush (flushDone { s with file := file } total) env.now site)
  | .exited => none
  | .failed => none
  | .overrun _ => none

/-! ### The machine -/

/-- A thread calls `bt_journal_append`, it takes a step of its push, the worker takes a step, the
owner calls `bt_journal_flush`, clears the stop flag in `bt_journal_close`, or returns from it. -/
inductive Act (ι : Type v)
  | append (p : ι) (entry : JournalEntry)
  | push (p : ι)
  | work (env : WorkerEnv)
  | flush
  | stop
  | join

/-- The worker has returned from its thread function. -/
def returnedWorker : WorkerPc → Bool
  | .exited => true
  | .failed => true
  | _ => false

/-- `bt_journal_append` counts an entry as dropped when its push fails. -/
def droppedAfter (s : Sys ι) (p : ι) : ℕ :=
  match (spscPushStep s.ring.q (s.ring.push p)).2.2 with
  | .fail => s.dropped + 1
  | _ => s.dropped

/-- One step of the machine.  The journal is handed out until it is closed, so nothing is appended
after that; `bt_journal_flush` only syncs the file, which changes none of its bytes. -/
def step [DecidableEq ι] (s : Sys ι) : Act ι → Option (Sys ι)
  | .append p entry =>
      if s.main = .up then
        (Spsc.step s.ring (.call p entry)).map fun ring => { s with ring := ring }
      else none
  | .push p =>
      (Spsc.step s.ring (.push p)).map fun ring =>
        { s with ring := ring, dropped := droppedAfter s p }
  | .work env => workerStep env s
  | .flush => if s.main = .up then some s else none
  | .stop => if s.main = .up then some { s with running := false, main := .stopping } else none
  | .join =>
      if s.main = .stopping ∧ returnedWorker s.worker = true then some { s with main := .closed }
      else none

/-- The worker starts, an entry is appended, and the worker copies it into its buffer and finds the
ring empty. -/
def appendAndCopy (entry : JournalEntry) : List (Act Unit) :=
  [.work calm, .append () entry, .push (), .push (), .push (), .push (),
    .work calm, .work calm, .work calm, .work calm, .work calm, .work calm, .work calm, .work calm,
    .work calm]

/-! ### What a step can do -/

/-- The worker's pop is a step of the ring's consumer. -/
theorem spsc_step_pop [DecidableEq ι] (ring : Spsc.Sys ι JournalEntry) :
    Spsc.step ring .pop = some (workerPop ring).1 := rfl

theorem workerPop_popped (ring : Spsc.Sys ι JournalEntry) :
    (workerPop ring).1.popped = ring.popped ++ returned (workerPop ring).2 := rfl

/-- A flush is entered only with something to write. -/
theorem enterFlush_of_pos {s : Sys ι} (h : 0 < s.buf.length) (now : UInt64) (site : FlushSite) :
    enterFlush s now site = { s with worker := .flush site 0 } := by
  rw [enterFlush, if_neg (by omega)]

/-- The end of a flush leaves the ring alone. -/
@[simp] theorem afterFlush_ring (s : Sys ι) (now : UInt64) (site : FlushSite) :
    (afterFlush s now site).ring = s.ring := by
  cases site <;> rfl

/-- Everything a step can do. -/
inductive Steps [DecidableEq ι] (s : Sys ι) : Act ι → Sys ι → Prop
  | append {p : ι} {entry : JournalEntry} {ring : Spsc.Sys ι JournalEntry} : s.main = .up →
      Spsc.step s.ring (.call p entry) = some ring →
      Steps s (.append p entry) { s with ring := ring }
  | push {p : ι} {ring : Spsc.Sys ι JournalEntry} : Spsc.step s.ring (.push p) = some ring →
      Steps s (.push p) { s with ring := ring, dropped := droppedAfter s p }
  | alloc {env : WorkerEnv} : s.worker = .start → env.mallocOk = true →
      Steps s (.work env) { s with buf := [], lastSync := env.now, worker := .loop }
  | allocFail {env : WorkerEnv} : s.worker = .start → env.mallocOk = false →
      Steps s (.work env) { s with worker := .failed }
  | loopOn {env : WorkerEnv} : s.worker = .loop → s.running = true →
      Steps s (.work env) { s with worker := .drain 0 }
  | loopFlush {env : WorkerEnv} : s.worker = .loop → s.running = false → 0 < s.buf.length →
      Steps s (.work env) { s with worker := .flush .final 0 }
  | loopExit {env : WorkerEnv} : s.worker = .loop → s.running = false → s.buf = [] →
      Steps s (.work env) { s with worker := .exited }
  | popWait {env : WorkerEnv} {d : ℕ} {ring : Spsc.Sys ι JournalEntry} : s.worker = .drain d →
      Spsc.step s.ring .pop = some ring → ring.popped = s.ring.popped →
      Steps s (.work env) { s with ring := ring, worker := .drain d }
  | popEmpty {env : WorkerEnv} {d : ℕ} {ring : Spsc.Sys ι JournalEntry} : s.worker = .drain d →
      Spsc.step s.ring .pop = some ring → ring.popped = s.ring.popped →
      Steps s (.work env) { s with ring := ring, worker := afterBatch d }
  | popEntry {env : WorkerEnv} {d : ℕ} {entry : JournalEntry} {ring : Spsc.Sys ι JournalEntry} :
      s.worker = .drain d → Spsc.step s.ring .pop = some ring →
      ring.popped = s.ring.popped ++ [entry] →
      Steps s (.work env) { s with ring := ring, worker := .got d entry }
  | batchFull {env : WorkerEnv} {d : ℕ} : s.worker = .drain d → journalBatchDrain ≤ d →
      Steps s (.work env) { s with worker := afterBatch d }
  | capFlush {env : WorkerEnv} {d : ℕ} {entry : JournalEntry} : s.worker = .got d entry →
      btCfgJournalBufSize < s.buf.length + sizeofJournalEntry →
      Steps s (.work env) { s with worker := .flush (.capacity d entry) 0 }
  | capOk {env : WorkerEnv} {d : ℕ} {entry : JournalEntry} : s.worker = .got d entry →
      s.buf.length + sizeofJournalEntry ≤ btCfgJournalBufSize →
      Steps s (.work env) { s with worker := .copy d entry }
  | copyIn {env : WorkerEnv} {d : ℕ} {entry : JournalEntry} : s.worker = .copy d entry →
      s.buf.length + sizeofJournalEntry ≤ btCfgJournalBufSize →
      Steps s (.work env) { s with buf := s.buf ++ entry.bytes, worker := .drain (d + 1) }
  | copyOver {env : WorkerEnv} {d : ℕ} {entry : JournalEntry} : s.worker = .copy d entry →
      btCfgJournalBufSize < s.buf.length + sizeofJournalEntry →
      Steps s (.work env) { s with worker := .overrun entry }
  | timerFlush {env : WorkerEnv} : s.worker = .idle → 0 < s.buf.length →
      Steps s (.work env) { s with worker := .flush (.timer env.now) 0 }
  | timerSkip {env : WorkerEnv} : s.worker = .idle → Steps s (.work env) { s with worker := .loop }
  | writeMore {env : WorkerEnv} {site : FlushSite} {done total : ℕ} {file : List UInt8} :
      s.worker = .flush site done →
      flushWrite s.file s.buf done env.write = some (file, total, true) →
      Steps s (.work env) { s with file := file, worker := .flush site total }
  | writeEnd {env : WorkerEnv} {site : FlushSite} {done total : ℕ} {file : List UInt8} :
      s.worker = .flush site done →
      flushWrite s.file s.buf done env.write = some (file, total, false) →
      Steps s (.work env) (afterFlush (flushDone { s with file := file } total) env.now site)
  | flush : s.main = .up → Steps s .flush s
  | stop : s.main = .up → Steps s .stop { s with running := false, main := .stopping }
  | join : s.main = .stopping → returnedWorker s.worker = true →
      Steps s .join { s with main := .closed }

section Inversion

variable [DecidableEq ι] {s s' : Sys ι}

theorem steps_of_drain {env : WorkerEnv} {d : ℕ} (hw : s.worker = .drain d)
    (h : workerStep env s = some s') : Steps s (.work env) s' := by
  by_cases hd : d < journalBatchDrain
  · simp only [workerStep, hw, if_pos hd] at h
    have hpop := spsc_step_pop s.ring
    have hpopped := workerPop_popped s.ring
    cases ho : (workerPop s.ring).2 with
    | pending =>
        simp only [ho, returned, List.append_nil, Option.some.injEq] at h hpopped
        subst h
        exact .popWait hw hpop hpopped
    | fail =>
        simp only [ho, returned, List.append_nil, Option.some.injEq] at h hpopped
        subst h
        exact .popEmpty hw hpop hpopped
    | done entry =>
        simp only [ho, returned, Option.some.injEq] at h hpopped
        subst h
        exact .popEntry hw hpop hpopped
  · simp only [workerStep, hw, if_neg hd, Option.some.injEq] at h
    subst h
    exact .batchFull hw (by omega)

theorem steps_of_flush {env : WorkerEnv} {site : FlushSite} {done : ℕ}
    (hw : s.worker = .flush site done) (h : workerStep env s = some s') :
    Steps s (.work env) s' := by
  cases hf : flushWrite s.file s.buf done env.write with
  | none => simp [workerStep, hw, hf] at h
  | some r =>
      obtain ⟨file, total, more⟩ := r
      cases more with
      | true =>
          simp only [workerStep, hw, hf, Option.some.injEq] at h
          subst h
          exact .writeMore hw hf
      | false =>
          simp only [workerStep, hw, hf, Option.some.injEq] at h
          subst h
          exact .writeEnd hw hf

theorem steps_of_work {env : WorkerEnv} (h : workerStep env s = some s') :
    Steps s (.work env) s' := by
  cases hw : s.worker with
  | start =>
      cases hm : env.mallocOk with
      | true =>
          simp only [workerStep, hw, hm, if_true, Option.some.injEq] at h
          subst h
          exact .alloc hw hm
      | false =>
          simp only [workerStep, hw, hm, Bool.false_eq_true, if_false, Option.some.injEq] at h
          subst h
          exact .allocFail hw hm
  | loop =>
      by_cases hr : s.running = true
      · simp only [workerStep, hw, if_pos hr, Option.some.injEq] at h
        subst h
        exact .loopOn hw hr
      · by_cases hb : 0 < s.buf.length
        · simp only [workerStep, hw, if_neg hr, if_pos hb, enterFlush_of_pos hb,
            Option.some.injEq] at h
          subst h
          exact .loopFlush hw (Bool.eq_false_iff.2 hr) hb
        · simp only [workerStep, hw, if_neg hr, if_neg hb, Option.some.injEq] at h
          subst h
          exact .loopExit hw (Bool.eq_false_iff.2 hr) (List.length_eq_zero_iff.1 (by omega))
  | drain d => exact steps_of_drain hw h
  | got d entry =>
      by_cases hb : btCfgJournalBufSize < s.buf.length + sizeofJournalEntry
      · have hpos : 0 < s.buf.length := by
          simp only [btCfgJournalBufSize, sizeofJournalEntry] at hb
          omega
        simp only [workerStep, hw, if_pos hb, enterFlush_of_pos hpos, Option.some.injEq] at h
        subst h
        exact .capFlush hw hb
      · simp only [workerStep, hw, if_neg hb, Option.some.injEq] at h
        subst h
        exact .capOk hw (by omega)
  | flush site done => exact steps_of_flush hw h
  | copy d entry =>
      by_cases hb : s.buf.length + sizeofJournalEntry ≤ btCfgJournalBufSize
      · simp only [workerStep, hw, if_pos hb, Option.some.injEq] at h
        subst h
        exact .copyIn hw hb
      · simp only [workerStep, hw, if_neg hb, Option.some.injEq] at h
        subst h
        exact .copyOver hw (by omega)
  | idle =>
      by_cases ht : 0 < s.buf.length ∧ syncNs s ≤ env.now - s.lastSync
      · simp only [workerStep, hw, if_pos ht, enterFlush_of_pos ht.1, Option.some.injEq] at h
        subst h
        exact .timerFlush hw ht.1
      · simp only [workerStep, hw, if_neg ht, Option.some.injEq] at h
        subst h
        exact .timerSkip hw
  | exited => simp [workerStep, hw] at h
  | failed => simp [workerStep, hw] at h
  | overrun entry => simp [workerStep, hw] at h

/-- **Every step is one of the listed ones.** -/
theorem steps_of_step {a : Act ι} (h : step s a = some s') : Steps s a s' := by
  cases a with
  | append p entry =>
      by_cases hm : s.main = .up
      · simp only [step, if_pos hm, Option.map_eq_some_iff] at h
        obtain ⟨ring, hring, rfl⟩ := h
        exact .append hm hring
      · simp [step, hm] at h
  | push p =>
      simp only [step, Option.map_eq_some_iff] at h
      obtain ⟨ring, hring, rfl⟩ := h
      exact .push hring
  | work env => exact steps_of_work h
  | flush =>
      by_cases hm : s.main = .up
      · simp only [step, if_pos hm, Option.some.injEq] at h
        subst h
        exact .flush hm
      · simp [step, hm] at h
  | stop =>
      by_cases hm : s.main = .up
      · simp only [step, if_pos hm, Option.some.injEq] at h
        subst h
        exact .stop hm
      · simp [step, hm] at h
  | join =>
      by_cases hj : s.main = .stopping ∧ returnedWorker s.worker = true
      · simp only [step, if_pos hj, Option.some.injEq] at h
        subst h
        exact .join hj.1 hj.2
      · simp [step, hj] at h

end Inversion

/-! ### The loop of a flush -/

/-- The call of `write` ends the loop of the flush early. -/
def WriteResult.fails : WriteResult → Prop
  | .wrote n => n = 0
  | .eintr => False
  | .error => True

instance (r : WriteResult) : Decidable r.fails := by
  cases r <;> unfold WriteResult.fails <;> infer_instance

/-- A call of `write` appends the next bytes of the buffer to the file, as many as it returns. -/
theorem flushWrite_file {file file' buf : List UInt8} {done total : ℕ} {r : WriteResult}
    {more : Bool} (h : flushWrite file buf done r = some (file', total, more)) :
    ∃ n, total = done + n ∧ file' = file ++ (buf.drop done).take n ∧
      (0 < n → r = .wrote n ∧ n ≤ buf.length - done) := by
  cases r with
  | eintr =>
      simp only [flushWrite, Option.some.injEq, Prod.mk.injEq] at h
      obtain ⟨rfl, rfl, -⟩ := h
      exact ⟨0, rfl, by simp, fun h => absurd h (Nat.lt_irrefl 0)⟩
  | error =>
      simp only [flushWrite, Option.some.injEq, Prod.mk.injEq] at h
      obtain ⟨rfl, rfl, -⟩ := h
      exact ⟨0, rfl, by simp, fun h => absurd h (Nat.lt_irrefl 0)⟩
  | wrote n =>
      rw [flushWrite] at h
      split at h
      · next hn =>
          split at h
          · simp only [Option.some.injEq, Prod.mk.injEq] at h
            obtain ⟨rfl, rfl, -⟩ := h
            exact ⟨0, rfl, by simp, fun h => absurd h (Nat.lt_irrefl 0)⟩
          · simp only [Option.some.injEq, Prod.mk.injEq] at h
            obtain ⟨rfl, rfl, -⟩ := h
            exact ⟨n, rfl, rfl, fun _ => ⟨rfl, hn⟩⟩
      · cases h

/-- The loop goes on only with something left to write. -/
theorem flushWrite_more {file file' buf : List UInt8} {done total : ℕ} {r : WriteResult}
    (hlt : done < buf.length) (h : flushWrite file buf done r = some (file', total, true)) :
    total < buf.length := by
  cases r with
  | eintr =>
      simp only [flushWrite, Option.some.injEq, Prod.mk.injEq] at h
      obtain ⟨-, rfl, -⟩ := h
      exact hlt
  | error => simp [flushWrite] at h
  | wrote n =>
      rw [flushWrite] at h
      split at h
      · split at h
        · simp at h
        · simp only [Option.some.injEq, Prod.mk.injEq, decide_eq_true_eq] at h
          obtain ⟨-, rfl, hmore⟩ := h
          exact hmore
      · cases h

/-- The loop ends when everything is written or a call fails. -/
theorem flushWrite_end {file file' buf : List UInt8} {done total : ℕ} {r : WriteResult}
    (h : flushWrite file buf done r = some (file', total, false)) :
    buf.length ≤ total ∨ (total = done ∧ r.fails) := by
  cases r with
  | eintr => simp [flushWrite] at h
  | error =>
      simp only [flushWrite, Option.some.injEq, Prod.mk.injEq] at h
      obtain ⟨-, rfl, -⟩ := h
      exact Or.inr ⟨rfl, trivial⟩
  | wrote n =>
      rw [flushWrite] at h
      split at h
      · split at h
        · next h0 =>
            simp only [Option.some.injEq, Prod.mk.injEq] at h
            obtain ⟨-, rfl, -⟩ := h
            exact Or.inr ⟨rfl, h0⟩
        · simp only [Option.some.injEq, Prod.mk.injEq, decide_eq_false_iff_not, not_lt] at h
          obtain ⟨-, rfl, hend⟩ := h
          exact Or.inl hend
      · cases h

end Journal
