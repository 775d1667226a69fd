/-
**The journal across crashes.**

`bt_journal_open` opens the file for appending and takes it as it finds it.  A process that is
killed in the middle of a `write` leaves a file that may end inside an entry, and everything the
next process writes is then shifted by the length of the torn part: a reader of fixed-size records
sees none of it.  The machine of this module lets the process be killed at any point, with any part
of the bytes it had handed to `write` in the file, and be started again, any number of times.

Main definitions:

* `Journal.Life`, `Journal.lifeStep` — the process that is killed and started again;
* `Journal.startOffset`, `Journal.readRecord` — where an entry starts in the file, and what a reader
  of fixed-size records sees there;
* `Journal.WrittenAligned` — the entries of the running process start at multiples of the entry
  size, and the reader finds them;
* `Journal.AlignedWrites` — no byte is written by a process that found a torn file.

Main results:

* `Journal.records_aligned_iff` — **the entries written are aligned exactly when no byte is written
  by a process that found a file whose length is no multiple of the entry size**;
* `Journal.torn_tail_shifts_entry` — one torn byte shifts the entry written after the restart.
-/

import AspiraBroker.JournalFile

set_option relaxedAutoImplicit false
set_option autoImplicit false

namespace Journal

open LockfreeQueue Ring Transition

universe v

variable {ι : Type v}

/-! ### A process that is killed and started again -/

/-- The process runs on its journal, or it is down and only the file is left. -/
inductive Life (ι : Type v)
  | up (s : Sys ι)
  | down (file : List UInt8)

/-- The process takes a step, it is killed with `k` of the bytes it has handed to `write` in the
file, it is started again and opens the journal. -/
inductive LifeAct (ι : Type v)
  | run (a : Act ι)
  | kill (k : ℕ)
  | reopen (syncIntervalMs : ℤ)

/-- The bytes handed to the call of `write` that the worker is in. -/
def requested (s : Sys ι) : List UInt8 :=
  match s.worker with
  | .flush _ writtenTotal => s.buf.drop writtenTotal
  | _ => []

/-- One step in the life of the process. -/
def lifeStep [DecidableEq ι] : Life ι → LifeAct ι → Option (Life ι)
  | .up s, .run a => (step s a).map .up
  | .up s, .kill k => some (.down ((s.file ++ requested s).take (s.base + k)))
  | .down file, .reopen syncIntervalMs => some (.up (btJournalOpen file syncIntervalMs))
  | _, _ => none

/-! ### Where entries start -/

/-- Where the entry that the process has popped after `i` others starts in the file. -/
def startOffset (s : Sys ι) (i : ℕ) : ℕ := s.base + sizeofJournalEntry * i

/-- What a reader of fixed-size records finds in place `r`. -/
def readRecord (file : List UInt8) (r : ℕ) : List UInt8 :=
  (file.drop (sizeofJournalEntry * r)).take sizeofJournalEntry

/-- Every entry that the process has begun to write starts at a multiple of the entry size, and the
reader finds it there, as far as it has been written. -/
def WrittenAligned : Life ι → Prop
  | .up s => ∀ i entry, s.ring.popped[i]? = some entry → startOffset s i < s.file.length →
      sizeofJournalEntry ∣ startOffset s i ∧
        readRecord s.file (startOffset s i / sizeofJournalEntry) =
          entry.bytes.take (s.file.length - startOffset s i)
  | .down _ => True

/-- The step is a call of `write` that puts bytes into the file. -/
def PutsBytes (s : Sys ι) : Act ι → Prop
  | .work env =>
      match s.worker, env.write with
      | .flush _ writtenTotal, .wrote n => 0 < n ∧ n ≤ s.buf.length - writtenTotal
      | _, _ => False
  | _ => False

/-- No byte is written by a process that found a file whose length is no multiple of the entry
size. -/
def AlignedWrites : Life ι → LifeAct ι → Prop
  | .up s, .run a => PutsBytes s a → sizeofJournalEntry ∣ s.base
  | _, _ => True

section Step

variable [DecidableEq ι] {s s' : Sys ι}

omit [DecidableEq ι] in
/-- What a call of `write` does to the length of the file. -/
theorem putsBytes_of_flushWrite {env : WorkerEnv} {site : FlushSite} {done total : ℕ}
    {file : List UInt8} {more : Bool} (hw : s.worker = .flush site done)
    (hf : flushWrite s.file s.buf done env.write = some (file, total, more)) :
    file = s.file ∨ PutsBytes s (.work env) ∧ s.file.length ≤ file.length := by
  obtain ⟨n, -, rfl, hput⟩ := flushWrite_file hf
  rcases Nat.eq_zero_or_pos n with rfl | hpos
  · exact Or.inl (by simp)
  · obtain ⟨hr, hn⟩ := hput hpos
    refine Or.inr ⟨?_, by simp⟩
    simp only [PutsBytes, hw, hr]
    exact ⟨hpos, hn⟩

/-- Only a `write` that puts bytes into it changes the file, and it does not shorten it. -/
theorem step_file {a : Act ι} (h : step s a = some s') :
    s'.file = s.file ∨ PutsBytes s a ∧ s.file.length ≤ s'.file.length := by
  cases steps_of_step h with
  | writeMore hw hf => exact putsBytes_of_flushWrite hw hf
  | @writeEnd env site done total file hw hf =>
      have hput := putsBytes_of_flushWrite hw hf
      cases site <;> exact hput
  | _ => exact Or.inl rfl

/-- The length the file had when the journal was opened is kept. -/
theorem step_base {a : Act ι} (h : step s a = some s') : s'.base = s.base := by
  cases steps_of_step h with
  | @writeEnd env site done total file hw hf => cases site <;> rfl
  | _ => rfl

/-- A `write` that puts bytes into the file is possible and makes it longer. -/
theorem step_of_putsBytes {a : Act ι} (h : PutsBytes s a) :
    ∃ s', step s a = some s' ∧ s.file.length < s'.file.length := by
  cases a with
  | work env =>
      obtain ⟨mallocOk, write, now⟩ := env
      simp only [PutsBytes] at h
      split at h
      · next site done n hw =>
          obtain ⟨hpos, hn⟩ := h
          have hlen : s.file.length < (s.file ++ (s.buf.drop done).take n).length := by
            simp only [List.length_append, List.length_take, List.length_drop]
            omega
          by_cases hmore : done + n < s.buf.length
          · refine ⟨{ s with file := s.file ++ (s.buf.drop done).take n,
                             worker := .flush site (done + n) }, ?_, hlen⟩
            simp [step, workerStep, hw, flushWrite, hn, hmore, hpos.ne']
          · refine ⟨afterFlush (flushDone { s with file := s.file ++ (s.buf.drop done).take n }
              (done + n)) now site, ?_, ?_⟩
            · simp [step, workerStep, hw, flushWrite, hn, hmore, hpos.ne']
            · cases site <;> exact hlen
      · exact h.elim
  | _ => exact h.elim

/-! ### The invariant -/

/-- What holds in a running process: the file is what was found, followed by a part of the popped
entries, and if something was written the file found had whole entries only. -/
structure Session (s : Sys ι) : Prop where
  conserved : ∃ file₀, file₀.length = s.base ∧ Conserved file₀ s
  grown : s.base ≤ s.file.length
  aligned : s.file.length = s.base ∨ sizeofJournalEntry ∣ s.base

/-- The invariant of a life. -/
def Lived : Life ι → Prop
  | .up s => Session s
  | .down _ => True

omit [DecidableEq ι] in
theorem btJournalOpen_session (file : List UInt8) (syncIntervalMs : ℤ) :
    Session (btJournalOpen file syncIntervalMs : Sys ι) where
  conserved := ⟨file, rfl, btJournalOpen_conserved file syncIntervalMs⟩
  grown := le_rfl
  aligned := Or.inl rfl

/-- A step that writes only to an aligned file keeps the invariant. -/
theorem step_session {a : Act ι} (hs : Session s)
    (hg : PutsBytes s a → sizeofJournalEntry ∣ s.base) (h : step s a = some s') : Session s' := by
  obtain ⟨file₀, hlen, hcons⟩ := hs.conserved
  have hbase := step_base h
  refine ⟨⟨file₀, hlen.trans hbase.symm, step_conserved hcons h⟩, ?_, ?_⟩
  · rw [hbase]
    rcases step_file h with heq | ⟨-, hle⟩
    · rw [heq]
      exact hs.grown
    · exact hs.grown.trans hle
  · rw [hbase]
    rcases step_file h with heq | ⟨hput, -⟩
    · rw [heq]
      exact hs.aligned
    · exact Or.inr (hg hput)

theorem lifeStep_lived {l l' : Life ι} {a : LifeAct ι} (hl : Lived l) (hg : AlignedWrites l a)
    (h : lifeStep l a = some l') : Lived l' := by
  cases l with
  | up s =>
      cases a with
      | run a =>
          simp only [lifeStep, Option.map_eq_some_iff] at h
          obtain ⟨s', hstep, rfl⟩ := h
          exact step_session hl hg hstep
      | kill k =>
          simp only [lifeStep, Option.some.injEq] at h
          subst h
          trivial
      | reopen ms => simp [lifeStep] at h
  | down file =>
      cases a with
      | run a => simp [lifeStep] at h
      | kill k => simp [lifeStep] at h
      | reopen ms =>
          simp only [lifeStep, Option.some.injEq] at h
          subst h
          exact btJournalOpen_session file ms

/-! ### What the reader finds -/

/-- The bytes from the place of an entry on are those of the entry and of the ones after it. -/
theorem drop_serialize {es : List JournalEntry} {i : ℕ} {entry : JournalEntry}
    (h : es[i]? = some entry) :
    (serialize es).drop (sizeofJournalEntry * i) = entry.bytes ++ serialize (es.drop (i + 1)) := by
  obtain ⟨hi, rfl⟩ := List.getElem?_eq_some_iff.1 h
  have hsplit : es = es.take i ++ ([es[i]] ++ es.drop (i + 1)) := by simp
  have hlen : (serialize (es.take i)).length = sizeofJournalEntry * i := by
    rw [length_serialize, List.length_take, Nat.min_eq_left hi.le]
  conv_lhs => rw [hsplit, serialize_append, ← hlen, List.drop_left]
  rw [serialize_append, serialize_singleton]

omit [DecidableEq ι] in
/-- The file holds the part of an entry that has been written, where the entry starts. -/
theorem Session.take_drop_file (hs : Session s) {i : ℕ} {entry : JournalEntry}
    (hi : s.ring.popped[i]? = some entry) :
    (s.file.drop (startOffset s i)).take sizeofJournalEntry =
      entry.bytes.take (s.file.length - startOffset s i) := by
  obtain ⟨file₀, hlen, hcons⟩ := hs.conserved
  have hfile : s.file = (file₀ ++ serialize s.ring.popped).take s.file.length := by
    rw [← hcons, stream, List.take_left]
  conv_lhs => rw [hfile]
  rw [List.drop_take, startOffset, ← hlen, ← List.drop_drop, List.drop_left, drop_serialize hi,
    List.take_take, List.take_append_of_le_length (by rw [entry.size]; exact Nat.min_le_left _ _),
    Nat.min_comm, ← List.take_take, ← entry.size, List.take_length]

omit [DecidableEq ι] in
/-- In an aligned session the reader finds every entry. -/
theorem Session.writtenAligned (hs : Session s) : WrittenAligned (.up s) := by
  intro i entry hi hstart
  have hdvd : sizeofJournalEntry ∣ startOffset s i := by
    rcases hs.aligned with heq | hbase
    · rw [startOffset] at hstart
      omega
    · exact (Nat.dvd_add_right hbase).2 (Nat.dvd_mul_right _ _)
  refine ⟨hdvd, ?_⟩
  rw [readRecord, Nat.mul_div_cancel' hdvd]
  exact hs.take_drop_file hi

/-- A write to a torn file shifts the first entry of the process. -/
theorem Session.dvd_base_of_writes (hs : Session s) {a : Act ι} (hput : PutsBytes s a)
    (h : ∀ s', step s a = some s' → WrittenAligned (.up s')) : sizeofJournalEntry ∣ s.base := by
  rcases hs.aligned with heq | hdvd
  · obtain ⟨s', hstep, hlt⟩ := step_of_putsBytes hput
    obtain ⟨file₀, hlen, hcons⟩ := hs.conserved
    have hbase := step_base hstep
    -- the bytes written are those of a popped entry
    have hpopped : 0 < s'.ring.popped.length := by
      have hlen' := congrArg List.length (step_conserved hcons hstep)
      simp only [stream, List.length_append, length_serialize] at hlen'
      by_contra hzero
      rw [Nat.eq_zero_of_not_pos hzero] at hlen'
      omega
    have hfirst : s'.ring.popped[0]? = some s'.ring.popped[0] := List.getElem?_eq_getElem hpopped
    have hin : startOffset s' 0 < s'.file.length := by
      rw [startOffset, hbase]
      omega
    have hdvd := (h s' hstep 0 _ hfirst hin).1
    rwa [startOffset, Nat.mul_zero, Nat.add_zero, hbase] at hdvd
  · exact hdvd

/-- **The entries written are aligned exactly when no byte is written by a process that found a file
whose length is no multiple of the entry size**, in every life of the process, however often it is
killed and started again. -/
theorem records_aligned_iff (file : List UInt8) (as : List (LifeAct ι)) :
    Throughout lifeStep WrittenAligned (.down file) as ↔
      Along lifeStep AlignedWrites (.down file) as := by
  have hkeep : ∀ (l : Life ι) (a : LifeAct ι) (l' : Life ι), Lived l → AlignedWrites l a →
      lifeStep l a = some l' → Lived l' := fun l a l' => lifeStep_lived
  refine throughout_iff_of_invariant hkeep (fun l hl => ?_) (fun l a hl h => ?_) (by trivial)
  · cases l with
    | up s => exact hl.writtenAligned
    | down file => trivial
  · cases l with
    | up s =>
        cases a with
        | run a =>
            intro hput
            refine hl.dvd_base_of_writes hput fun s' hstep => h (.up s') ?_
            simp only [lifeStep, hstep, Option.map_some]
        | kill k => trivial
        | reopen ms => trivial
    | down file => trivial

end Step

/-- A process appends an entry and stops, and the worker is about to write the entry out. -/
def writeOut (entry : JournalEntry) : List (LifeAct Unit) :=
  (appendAndCopy entry ++ [Act.stop, Act.work calm]).map .run

/-- A first process is killed with one byte of its entry in the file. -/
def tornByte : List (LifeAct Unit) := .reopen 1 :: writeOut (.fill 1) ++ [.kill 1]

/-- A second process writes its entry out. -/
def writeAgain : List (LifeAct Unit) :=
  .reopen 1 :: writeOut (.fill 2) ++
    [.run (.work { calm with write := .wrote sizeofJournalEntry })]

theorem run_tornByte : run lifeStep (.down []) tornByte = some (.down [1]) := rfl

/-- The entry of the second process starts at offset one. -/
theorem torn_tail_shifts_entry :
    ∃ s : Sys Unit, run lifeStep (.down []) (tornByte ++ writeAgain) = some (.up s) ∧
      s.ring.popped = [.fill 2] ∧ s.file = 1 :: (JournalEntry.fill 2).bytes ∧
      startOffset s 0 = 1 ∧ ¬ WrittenAligned (.up s) := by
  rw [run_append_eq run_tornByte]
  refine ⟨_, rfl, rfl, rfl, rfl, fun h => ?_⟩
  have hdvd : sizeofJournalEntry ∣ 1 := (h 0 (.fill 2) rfl (by decide)).1
  revert hdvd
  decide

end Journal
