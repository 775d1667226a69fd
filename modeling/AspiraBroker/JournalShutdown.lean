/-
**Shutting the journal down.**

`bt_journal_close` clears the stop flag and joins the worker, and the worker leaves its loop as soon
as it sees the flag cleared: it writes out its buffer, but it does not look at the ring again.  So
for a single appender, with no failing call, the file is complete exactly when the ring happens to
be empty at the moment the worker sees the flag.

Main definitions:

* `Journal.Orderly` — the environment of a shutdown: no failing call, and the flag is cleared with
  no append under way;
* `Journal.SeesDrained` — the worker sees the cleared flag only with the ring empty;
* `Journal.Stopping` — the invariant of the shutdown.

Main results:

* `Journal.step_stopping` — the invariant is kept;
* `Journal.shutdown_keeps_all_iff` — **the file is complete exactly when the ring was empty when the
  worker saw the flag**;
* `Journal.shutdown_loses_entry` — an entry that is still in the ring then is lost.
-/

import AspiraBroker.JournalFile
import AspiraBroker.JournalRing

set_option relaxedAutoImplicit false
set_option autoImplicit false

namespace Journal

open LockfreeQueue Ring Transition

universe v

variable {ι : Type v}

/-! ### The environment of a shutdown -/

/-- Nothing fails in the step, and the stop flag is cleared only with no append under way. -/
def Orderly (s : Sys ι) : Act ι → Prop
  | .work env =>
      match s.worker with
      | .start => env.mallocOk = true
      | .flush _ _ => ¬ env.write.fails
      | _ => True
  | .stop => ∀ p, Spsc.calling (s.ring.push p) = false
  | _ => True

instance [Fintype ι] (s : Sys ι) (a : Act ι) : Decidable (Orderly s a) := by
  cases a with
  | work env =>
      unfold Orderly
      cases s.worker <;> infer_instance
  | stop => exact inferInstanceAs (Decidable (∀ p, Spsc.calling (s.ring.push p) = false))
  | _ => exact isTrue trivial

/-- The worker sees the cleared flag only with the ring empty. -/
def SeesDrained (s : Sys ι) : Act ι → Prop
  | .work _ =>
      match s.worker with
      | .loop => s.running = false → s.ring.q.head = s.ring.q.tail
      | _ => True
  | _ => True

instance (s : Sys ι) (a : Act ι) : Decidable (SeesDrained s a) := by
  cases a with
  | work env =>
      unfold SeesDrained
      cases s.worker <;> infer_instance
  | _ => exact isTrue trivial

/-! ### The invariant -/

/-- The worker has left its loop. -/
def ending : WorkerPc → Bool
  | .flush .final _ => true
  | .exited => true
  | _ => false

theorem ending_iff {pc : WorkerPc} :
    ending pc = true ↔ (∃ n, pc = .flush .final n) ∨ pc = .exited := by
  unfold ending
  split
  · simp
  · simp
  · next hf he =>
      constructor
      · intro h
        cases h
      · rintro (⟨n, rfl⟩ | rfl)
        · exact absurd rfl (hf n)
        · exact absurd rfl he

/-- What is known of a worker that has left its loop, and that it has a buffer. -/
def Ending (running : Bool) (buf : List UInt8) : WorkerPc → Prop
  | .flush .final _ => running = false
  | .exited => running = false ∧ buf = []
  | .failed => False
  | _ => True

@[simp] theorem ending_afterBatch (d : ℕ) : ending (afterBatch d) = false := by
  unfold afterBatch
  split <;> rfl

theorem Ending.afterBatch (running : Bool) (buf : List UInt8) (d : ℕ) :
    Ending running buf (afterBatch d) := by
  unfold Journal.afterBatch
  split <;> trivial

theorem Ending.running_eq {running : Bool} {buf : List UInt8} {pc : WorkerPc}
    (h : Ending running buf pc) (he : ending pc = true) : running = false := by
  rcases ending_iff.1 he with ⟨n, rfl⟩ | rfl
  · exact h
  · exact h.1

/-- Clearing the flag tells a worker that has left its loop nothing new. -/
theorem Ending.stop {running : Bool} {buf : List UInt8} {pc : WorkerPc}
    (h : Ending running buf pc) : Ending false buf pc := by
  unfold Ending at h ⊢
  split
  · rfl
  · exact ⟨rfl, h.2⟩
  · exact h
  · trivial

/-- **The invariant of the shutdown**: the flag is set while the journal is up, nobody is in an
append once it is cleared, `bt_journal_close` has returned only if the worker has, and a worker that
has left its loop has seen the flag cleared. -/
structure Stopping (s : Sys ι) : Prop where
  up : s.main = .up → s.running = true
  quiet : s.running = false → ∀ p, Spsc.calling (s.ring.push p) = false
  joined : s.main = .closed → returnedWorker s.worker = true
  worker : Ending s.running s.buf s.worker

theorem btJournalOpen_stopping (file : List UInt8) (syncIntervalMs : ℤ) :
    Stopping (btJournalOpen file syncIntervalMs : Sys ι) where
  up := fun _ => rfl
  quiet := fun h => by cases h
  joined := fun h => by cases h
  worker := trivial

section Step

variable [DecidableEq ι] {s s' : Sys ι}

/-- A step of the worker touches neither the flag nor the appenders. -/
theorem work_frame {env : WorkerEnv} (h : step s (.work env) = some s') :
    s'.main = s.main ∧ s'.running = s.running ∧ s'.ring.push = s.ring.push := by
  cases steps_of_step h with
  | popWait hw hpop hp => exact ⟨rfl, rfl, Spsc.push_pop hpop⟩
  | popEmpty hw hpop hp => exact ⟨rfl, rfl, Spsc.push_pop hpop⟩
  | popEntry hw hpop hp => exact ⟨rfl, rfl, Spsc.push_pop hpop⟩
  | @writeEnd env site done total file hw hf => cases site <;> exact ⟨rfl, rfl, rfl⟩
  | _ => exact ⟨rfl, rfl, rfl⟩

/-- A worker that has returned takes no step. -/
theorem not_returned_of_work {env : WorkerEnv} (h : step s (.work env) = some s') :
    returnedWorker s.worker = false := by
  cases hw : s.worker with
  | exited => simp [step, workerStep, hw] at h
  | failed => simp [step, workerStep, hw] at h
  | _ => rfl

/-- A worker that leaves its loop has seen the flag cleared, and has written everything when it
returns. -/
theorem step_ending {env : WorkerEnv} (hs : Stopping s) (hg : Orderly s (.work env))
    (h : step s (.work env) = some s') : Ending s'.running s'.buf s'.worker := by
  cases steps_of_step h with
  | allocFail hw hm =>
      simp only [Orderly, hw] at hg
      rw [hg] at hm
      cases hm
  | loopFlush hw hr hb => exact hr
  | loopExit hw hr hb => exact ⟨hr, hb⟩
  | popEmpty hw hpop hp => exact .afterBatch s.running s.buf _
  | batchFull hw hd => exact .afterBatch s.running s.buf _
  | @writeMore env site done total file hw hf =>
      have he := hs.worker
      rw [hw] at he
      cases site with
      | final => exact he
      | capacity d entry => trivial
      | timer t => trivial
  | @writeEnd env site done total file hw hf =>
      have he := hs.worker
      rw [hw] at he
      cases site with
      | final =>
          simp only [Orderly, hw] at hg
          rcases flushWrite_end hf with hall | ⟨-, hfails⟩
          · exact ⟨he, List.drop_eq_nil_of_le hall⟩
          · exact absurd hfails hg
      | capacity d entry => trivial
      | timer t => trivial
  | _ => trivial

/-- **The invariant is kept** while nothing fails. -/
theorem step_stopping {a : Act ι} (hs : Stopping s) (hg : Orderly s a)
    (h : step s a = some s') : Stopping s' := by
  cases a with
  | work env =>
      obtain ⟨hmain, hrun, hpush⟩ := work_frame h
      refine ⟨fun hm => ?_, fun hr => ?_, fun hm => ?_, step_ending hs hg h⟩
      · rw [hrun]
        exact hs.up (hmain ▸ hm)
      · rw [hpush]
        exact hs.quiet (hrun ▸ hr)
      · have hret := hs.joined (hmain ▸ hm)
        rw [not_returned_of_work h] at hret
        cases hret
  | append p entry =>
      cases steps_of_step h with
      | append hm hring =>
          refine { hs with quiet := fun hr => ?_ }
          rw [hs.up hm] at hr
          cases hr
  | push p =>
      cases steps_of_step h with
      | push hring =>
          refine { hs with quiet := fun hr => ?_ }
          have hcall := Spsc.calling_of_push hring
          rw [hs.quiet hr p] at hcall
          cases hcall
  | flush =>
      cases steps_of_step h with
      | flush hm => exact hs
  | stop =>
      cases steps_of_step h with
      | stop hm =>
          refine ⟨fun h => ?_, fun _ => hg, fun h => ?_, ?_⟩
          · cases h
          · cases h
          · exact hs.worker.stop
  | join =>
      cases steps_of_step h with
      | join hm hret =>
          exact { hs with up := fun h => (by cases h), joined := fun _ => hret }

/-! ### The moment the worker leaves its loop -/

/-- The worker has left its loop, and entries are still in the ring. -/
def LeftBehind (s : Sys ι) : Prop :=
  ending s.worker = true ∧ s.ring.q.head ≠ s.ring.q.tail

/-- Once the worker has left its loop, it stays out of it and the ring does not change any more. -/
theorem ring_frozen {a : Act ι} (hs : Stopping s) (he : ending s.worker = true)
    (h : step s a = some s') : ending s'.worker = true ∧ s'.ring = s.ring := by
  have hr := hs.worker.running_eq he
  cases a with
  | work env =>
      rcases ending_iff.1 he with ⟨n, hw⟩ | hw
      · simp only [step, workerStep, hw] at h
        split at h
        · cases h
        · cases h
          exact ⟨rfl, rfl⟩
        · cases h
          exact ⟨rfl, rfl⟩
      · have hret := not_returned_of_work h
        rw [hw] at hret
        cases hret
  | append p entry =>
      cases steps_of_step h with
      | append hm hring =>
          rw [hs.up hm] at hr
          cases hr
  | push p =>
      cases steps_of_step h with
      | push hring =>
          have hcall := Spsc.calling_of_push hring
          rw [hs.quiet hr p] at hcall
          cases hcall
  | flush =>
      cases steps_of_step h with
      | flush hm => exact ⟨he, rfl⟩
  | stop =>
      cases steps_of_step h with
      | stop hm => exact ⟨he, rfl⟩
  | join =>
      cases steps_of_step h with
      | join hm hret => exact ⟨he, rfl⟩

/-- A worker that is still in its loop leaves it only by seeing the flag cleared, and does not touch
the ring then. -/
theorem leaves_loop_iff {env : WorkerEnv} (he : ending s.worker = false)
    (h : step s (.work env) = some s') :
    (ending s'.worker = true ↔ s.worker = .loop ∧ s.running = false) ∧
      (ending s'.worker = true → s'.ring = s.ring) := by
  cases steps_of_step h with
  | loopFlush hw hr hb => exact ⟨⟨fun _ => ⟨hw, hr⟩, fun _ => rfl⟩, fun _ => rfl⟩
  | loopExit hw hr hb => exact ⟨⟨fun _ => ⟨hw, hr⟩, fun _ => rfl⟩, fun _ => rfl⟩
  | loopOn hw hr => simp [hw, hr, ending]
  | popEmpty hw hpop hp => simp [hw]
  | batchFull hw hd => simp [hw]
  | @writeMore env site done total file hw hf =>
      rw [hw] at he
      cases site with
      | final => cases he
      | capacity d entry => simp [hw, ending]
      | timer t => simp [hw, ending]
  | @writeEnd env site done total file hw hf =>
      rw [hw] at he
      cases site with
      | final => cases he
      | capacity d entry => simp [hw, ending, afterFlush]
      | timer t => simp [hw, ending, afterFlush]
  | alloc hw => simp [hw, ending]
  | allocFail hw => simp [hw, ending]
  | popWait hw => simp [hw, ending]
  | popEntry hw => simp [hw, ending]
  | capFlush hw => simp [hw, ending]
  | capOk hw => simp [hw, ending]
  | copyIn hw => simp [hw, ending]
  | copyOver hw => simp [hw, ending]
  | timerFlush hw => simp [hw, ending]
  | timerSkip hw => simp [hw, ending]

/-- Only the worker's own steps move the worker. -/
theorem worker_of_other {a : Act ι} (ha : ∀ env, a ≠ .work env) (h : step s a = some s') :
    s'.worker = s.worker := by
  cases a with
  | work env => exact absurd rfl (ha env)
  | _ =>
      cases steps_of_step h
      rfl

/-- **A step leaves entries behind exactly when it is the worker seeing the flag with the ring not
empty.** -/
theorem leaves_behind_iff {a : Act ι} (hs : Stopping s) (hF : ¬ LeftBehind s)
    (h : step s a = some s') : SeesDrained s a ↔ ¬ LeftBehind s' := by
  cases he : ending s.worker with
  | true =>
      obtain ⟨he', hring⟩ := ring_frozen hs he h
      have hF' : ¬ LeftBehind s' := fun hL => hF ⟨he, hring ▸ hL.2⟩
      refine ⟨fun _ => hF', fun _ => ?_⟩
      cases a with
      | work env => rcases ending_iff.1 he with ⟨n, hw⟩ | hw <;> simp [SeesDrained, hw]
      | _ => trivial
  | false =>
      cases a with
      | work env =>
          obtain ⟨hiff, hring⟩ := leaves_loop_iff he h
          cases hw : s.worker with
          | loop =>
              simp only [SeesDrained, hw]
              constructor
              · rintro hC ⟨he', hne⟩
                rw [hring he'] at hne
                exact hne (hC (hiff.1 he').2)
              · intro hF' hr
                have he' := hiff.2 ⟨hw, hr⟩
                by_contra hne
                exact hF' ⟨he', by rw [hring he']; exact hne⟩
          | _ =>
              have hstill : ¬ LeftBehind s' := by
                rintro ⟨he', -⟩
                have := (hiff.1 he').1
                rw [hw] at this
                cases this
              simp [SeesDrained, hw, hstill]
      | _ =>
          have hworker := worker_of_other (by nofun) h
          simp [SeesDrained, LeftBehind, hworker, he]

/-! ### The file after the shutdown -/

omit [DecidableEq ι] in
/-- When `bt_journal_close` has returned, the file is complete exactly when nothing was left
behind. -/
theorem file_complete_iff {file : List UInt8} (hkept : Spsc.Kept ringCapacity s.ring)
    (hcons : Conserved file s) (hs : Stopping s) (hclosed : s.main = .closed) :
    s.file = file ++ serialize s.ring.items ↔ ¬ LeftBehind s := by
  have hexit : s.worker = .exited := by
    have hret := hs.joined hclosed
    have he := hs.worker
    cases hw : s.worker with
    | exited => rfl
    | failed =>
        rw [hw] at he
        exact he.elim
    | _ =>
        rw [hw] at hret
        cases hret
  have he := hs.worker
  rw [hexit] at he
  have hfile : s.file = file ++ serialize s.ring.popped := by
    rw [← hcons, stream, hexit, unflushed, he.2, List.append_nil]
  have hbehind : LeftBehind s ↔ s.ring.q.head ≠ s.ring.q.tail := by
    rw [LeftBehind, hexit]
    exact ⟨fun h => h.2, fun h => ⟨rfl, h⟩⟩
  rw [hbehind, not_ne_iff, hkept.ring.empty_iff, hfile, List.append_cancel_left_eq]
  constructor
  · intro heq
    have hlen := congrArg List.length heq
    simp only [length_serialize, Spsc.length_items] at hlen
    exact Nat.eq_of_mul_eq_mul_left (by decide) hlen
  · intro hlen
    rw [← Spsc.length_items] at hlen
    rw [hkept.order.eq_of_length hlen]

/-- **Shutting down keeps every entry exactly when the worker sees the cleared flag only with the
ring empty**: for a single appender, in every run in which nothing fails and the flag is cleared
with no append under way, after `bt_journal_close` has returned. -/
theorem shutdown_keeps_all_iff [Subsingleton ι] (file : List UInt8) (syncIntervalMs : ℤ)
    (as : List (Act ι)) (hord : Along step Orderly (btJournalOpen file syncIntervalMs) as)
    (hrun : run step (btJournalOpen file syncIntervalMs) as = some s) (hclosed : s.main = .closed) :
    s.file = file ++ serialize s.ring.items ↔
      Along step SeesDrained (btJournalOpen file syncIntervalMs) as := by
  have hkeep : ∀ (s : Sys ι) (a : Act ι) (s' : Sys ι),
      (Spsc.Kept ringCapacity s.ring ∧ Conserved file s ∧ Stopping s) → Orderly s a →
        step s a = some s' →
          Spsc.Kept ringCapacity s'.ring ∧ Conserved file s' ∧ Stopping s' :=
    fun s a s' hs hg h => ⟨step_ring_kept hs.1 (exclusiveAppend_of_subsingleton s a) h,
      step_conserved hs.2.1 h, step_stopping hs.2.2 hg h⟩
  have hinit : Spsc.Kept ringCapacity (btJournalOpen file syncIntervalMs : Sys ι).ring ∧
      Conserved file (btJournalOpen file syncIntervalMs : Sys ι) ∧
        Stopping (btJournalOpen file syncIntervalMs : Sys ι) :=
    ⟨Spsc.init_kept _ _, btJournalOpen_conserved file syncIntervalMs,
      btJournalOpen_stopping file syncIntervalMs⟩
  obtain ⟨hkept, hcons, hstop⟩ := run_induction hkeep hinit hord hrun
  rw [file_complete_iff hkept hcons hstop hclosed]
  refine (along_iff_of_stable hkeep (fun s a s' hs hg => leaves_behind_iff hs.2.2)
    (fun s a s' hs hg hL h => ?_) hinit (fun hL => ?_) hord hrun).symm
  · obtain ⟨he', hring⟩ := ring_frozen hs.2.2 hL.1 h
    exact ⟨he', by rw [hring]; exact hL.2⟩
  · cases hL.1

end Step

/-- The shutdown of `main`: the worker writes out its buffer in one call and returns. -/
def flushAndClose : List (Act Unit) :=
  [.flush, .stop, .work calm, .work { calm with write := .wrote sizeofJournalEntry }, .join]

/-- The hypotheses of `Journal.shutdown_keeps_all_iff` hold of a run that appends an entry, lets the
worker copy it and shuts down, and the file is complete. -/
theorem shutdown_keeps_copied_entry :
    ∃ s : Sys Unit,
      run step (btJournalOpen [] 1) (appendAndCopy (.fill 1) ++ flushAndClose) = some s ∧
        s.ring.items = [.fill 1] ∧ s.file = [] ++ serialize s.ring.items :=
  ⟨_, rfl, rfl, (shutdown_keeps_all_iff [] 1 (appendAndCopy (.fill 1) ++ flushAndClose)
    (by decide) rfl rfl).2 (by decide)⟩

/-- The worker starts, an entry is appended, and the journal is shut down before the worker looks at
the ring. -/
def closeAtOnce : List (Act Unit) :=
  [.work calm, .append () (.fill 1), .push (), .push (), .push (), .push (), .flush, .stop,
    .work calm, .join]

/-- The append returned `0`, nothing failed, and the file is empty after `bt_journal_close`. -/
theorem shutdown_loses_entry :
    ∃ s : Sys Unit, run step (btJournalOpen [] 1) closeAtOnce = some s ∧
      Along step Orderly (btJournalOpen [] 1) closeAtOnce ∧ s.main = .closed ∧
      s.ring.items = [.fill 1] ∧ s.file = [] ∧ s.file ≠ [] ++ serialize s.ring.items :=
  ⟨_, rfl, by decide, rfl, rfl, rfl, by decide⟩

end Journal
