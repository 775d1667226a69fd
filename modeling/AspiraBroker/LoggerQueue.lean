/-
**The log ring as a queue that drops its oldest messages.**

Called from one thread only, the logger of `AspiraBroker/Logger.lean` does what its comments say:
a flush writes the messages that were accepted since the last flush, in order, and if there were
more than the ring has room for, the newest of them.  The ring has 4096 slots and keeps one of them
free, so that it has room for 4095 messages.

The specification is a queue without a bound that remembers everything accepted since the last
flush; only the flush looks at its last 4095 messages.  The ring drops the oldest message at each
call that finds it full, so the relation between the two is that the window of the ring between head
and tail is always the end of the queue.

Whole calls are runs of the machine with single loads and stores, which is how this module is tied
to the other one.

Main definitions:

* `LoggerQueue.Log`, `LoggerQueue.btLog`, `LoggerQueue.btLogFlush`, `LoggerQueue.step` — whole
  calls;
* `LoggerQueue.Queue`, `LoggerQueue.answer` — the specification;
* `LoggerQueue.Holds` — the relation between the two.

Main results:

* `LoggerQueue.step_simulates` — every call keeps the relation, and every flush returns;
* `LoggerQueue.log_refines_queue` — **the log ring refines the queue**, for every sequence of calls;
* `LoggerQueue.exists_run_btLog`, `LoggerQueue.exists_run_btLogFlush` — whole calls are runs of the
  machine.
-/

import AspiraBroker.Logger
import AspiraBroker.Refinement
import AspiraBroker.RingWindow
import Mathlib.Data.List.DropRight
import Mathlib.Data.List.ReduceOption

set_option relaxedAutoImplicit false
set_option autoImplicit false

namespace LoggerQueue

open Logger Refinement Ring

universe u

variable {α : Type u}

/-! ### Whole calls -/

/-- The static state of the logger.  The messages are texts as they are stored; a slot that was
never written holds the empty text. -/
structure Log (α : Type u) where
  ring : ℕ → Option α
  head : ℕ
  tail : ℕ
  logLevel : Int32

/-- The logger as it is loaded. -/
def Log.initial (α : Type u) : Log α := ⟨fun _ => none, 0, 0, 2⟩

/-- `bt_log`. -/
def btLog (s : Log α) (level : Int32) (m : α) : Log α :=
  if level > s.logLevel then s
  else
    let next := (s.tail + 1) % logRingSize
    { s with
      -- a full ring drops its oldest message
      head := if next = s.head then (s.head + 1) % logRingSize else s.head
      ring := Function.update s.ring s.tail (some m)
      tail := next }

/-- The loop of `bt_log_flush`, with the lines written.  Without fuel it does not return. -/
def flushLoop (ring : ℕ → Option α) (tail : ℕ) :
    ℕ → ℕ → List (Option α) → Option (ℕ × List (Option α))
  | 0, _, _ => none
  | fuel + 1, head, out =>
      if head = tail then some (head, out)
      else flushLoop ring tail fuel ((head + 1) % logRingSize) (out ++ [ring head])

/-- `bt_log_flush`, with the lines it writes; a loop that has seen every slot once goes on for
ever. -/
def btLogFlush (s : Log α) : Option (Log α × List (Option α)) :=
  (flushLoop s.ring s.tail logRingSize s.head []).map fun r => ({ s with head := r.1 }, r.2)

/-- The calls. -/
inductive Call (α : Type u)
  | log (level : Int32) (m : α)
  | setLevel (level : Int32)
  | flush

/-- One call: the logger after it, and the lines written. -/
def step (s : Log α) : Call α → Option (Log α × List (Option α))
  | .log level m => some (btLog s level m, [])
  | .setLevel level => some ({ s with logLevel := level }, [])
  | .flush => btLogFlush s

/-! ### The specification -/

/-- The level in force, and the messages accepted since the last flush. -/
structure Queue (α : Type u) where
  level : Int32
  accepted : List α

/-- What a call is to do: a message is accepted if its level is at most the level in force; a flush
writes the last 4095 of the messages accepted, and forgets all. -/
def answer (q : Queue α) : Call α → Queue α × List (Option α)
  | .log level m => (if level ≤ q.level then { q with accepted := q.accepted ++ [m] } else q, [])
  | .setLevel level => ({ q with level := level }, [])
  | .flush => ({ q with accepted := [] }, (q.accepted.rtake (logRingSize - 1)).map some)

/-- The specification as a relation. -/
def Answers (q : Queue α) (c : Call α) (lines : List (Option α)) (q' : Queue α) : Prop :=
  answer q c = (q', lines)

/-! ### The relation -/

/-- The window of the ring between head and tail is the end of the queue. -/
structure Holds (s : Log α) (q : Queue α) : Prop where
  level : s.logLevel = q.level
  head : s.head < logRingSize
  tail : s.tail = (s.head + (q.accepted.rtake (logRingSize - 1)).length) % logRingSize
  held : window logRingSize s.ring s.head (q.accepted.rtake (logRingSize - 1)).length =
    (q.accepted.rtake (logRingSize - 1)).map some

theorem holds_initial (α : Type u) : Holds (Log.initial α) ⟨2, []⟩ where
  level := rfl
  head := Nat.zero_lt_succ _
  tail := by simp [Log.initial]
  held := by simp

theorem length_rtake_lt (l : List α) : (l.rtake (logRingSize - 1)).length < logRingSize := by
  simp only [List.rtake, List.length_drop, logRingSize]
  omega

/-- The end of a queue that grows by one message: it grows too, or its oldest message is gone. -/
theorem rtake_append_singleton (l : List α) (m : α) (k : ℕ) :
    (l ++ [m]).rtake k =
      if l.length < k then l.rtake k ++ [m] else (l.rtake k ++ [m]).drop 1 := by
  unfold List.rtake
  split
  · next h =>
      have hall : l.length - k = 0 := by omega
      have hall' : (l ++ [m]).length - k = 0 := by
        rw [List.length_append, List.length_singleton]
        omega
      rw [hall, hall', List.drop_zero, List.drop_zero]
  · next h =>
      have hmore : (l ++ [m]).length - k = l.length - k + 1 := by
        rw [List.length_append, List.length_singleton]
        omega
      rw [hmore, ← List.drop_append_of_le_length (by omega), List.drop_drop]

namespace Holds

variable {s : Log α} {q : Queue α}

/-- The ring is full when the queue is as long as its end can be. -/
theorem full_iff (h : Holds s q) :
    (s.tail + 1) % logRingSize = s.head ↔ ¬ q.accepted.length < logRingSize - 1 := by
  have hhead := h.head
  rw [h.tail, Nat.mod_add_mod]
  simp only [List.rtake, List.length_drop, logRingSize] at hhead ⊢
  omega

/-- A message that is accepted: the slot behind the window is written, and of a full ring the oldest
message is given up. -/
theorem log (h : Holds s q) {level : Int32} (hlevel : level ≤ q.level) (m : α) :
    Holds (btLog s level m) { q with accepted := q.accepted ++ [m] } := by
  have hnot : ¬ level > s.logLevel := by
    rw [h.level]
    exact Int32.not_lt.2 hlevel
  have hlt := length_rtake_lt q.accepted
  have hwrite : window logRingSize
      (Function.update s.ring
        ((s.head + (q.accepted.rtake (logRingSize - 1)).length) % logRingSize) (some m)) s.head
      ((q.accepted.rtake (logRingSize - 1)).length + 1) = _ := window_update hlt
  have hgrow := rtake_append_singleton q.accepted m (logRingSize - 1)
  rw [← h.tail, h.held, ← List.map_singleton, ← List.map_append] at hwrite
  rw [btLog, if_neg hnot]
  by_cases hfull : (s.tail + 1) % logRingSize = s.head
  · rw [if_neg (h.full_iff.1 hfull)] at hgrow
    have hlen : ((q.accepted ++ [m]).rtake (logRingSize - 1)).length =
        (q.accepted.rtake (logRingSize - 1)).length := by
      rw [hgrow, List.length_drop, List.length_append, List.length_singleton, Nat.add_sub_cancel]
    refine ⟨h.level, ?_, ?_, ?_⟩
    · simp only [if_pos hfull]
      exact Nat.mod_lt _ (by decide)
    · simp only [if_pos hfull, hlen, Nat.mod_add_mod]
      rw [h.tail, Nat.mod_add_mod, Nat.add_right_comm]
    · simp only [if_pos hfull, hlen, window_mod_head]
      rw [hgrow, List.map_drop, ← hwrite, drop_window (Nat.le_add_left 1 _), Nat.add_sub_cancel]
  · rw [if_pos (not_not.1 (mt h.full_iff.2 hfull))] at hgrow
    refine ⟨h.level, ?_, ?_, ?_⟩
    · simp only [if_neg hfull]
      exact h.head
    · simp only [if_neg hfull, hgrow, List.length_append, List.length_singleton]
      rw [h.tail, Nat.mod_add_mod, Nat.add_assoc]
    · simp only [if_neg hfull, hgrow, List.length_append, List.length_singleton]
      exact hwrite

/-- The loop reads the window. -/
theorem flushLoop_eq (ring : ℕ → Option α) {head n fuel : ℕ} (hhead : head < logRingSize)
    (hn : n < logRingSize) (hfuel : n < fuel) (out : List (Option α)) :
    flushLoop ring ((head + n) % logRingSize) fuel head out =
      some ((head + n) % logRingSize, out ++ window logRingSize ring head n) := by
  induction n generalizing head fuel out with
  | zero =>
      obtain ⟨fuel, rfl⟩ := Nat.exists_eq_succ_of_ne_zero hfuel.ne'
      rw [flushLoop, Nat.add_zero, Nat.mod_eq_of_lt hhead, if_pos rfl, window_zero, List.append_nil]
  | succ n ih =>
      obtain ⟨fuel, rfl⟩ := Nat.exists_eq_succ_of_ne_zero (Nat.ne_zero_of_lt hfuel)
      have hne : ¬ head = (head + (n + 1)) % logRingSize := by
        simp only [logRingSize] at hhead hn ⊢
        omega
      have hnext : (head + (n + 1)) % logRingSize =
          ((head + 1) % logRingSize + n) % logRingSize := by
        rw [Nat.mod_add_mod, Nat.add_right_comm, Nat.add_assoc]
      rw [flushLoop, if_neg hne, hnext,
        ih (Nat.mod_lt _ (by decide)) (by omega) (Nat.lt_of_succ_lt_succ hfuel), window_mod_head,
        Nat.add_comm n 1, window_add, List.append_assoc]
      have hfirst : window logRingSize ring head 1 = [ring head] := by
        rw [window, List.range_one, List.map_singleton, Nat.add_zero, Nat.mod_eq_of_lt hhead]
      rw [hfirst]

/-- A flush returns, with the lines of the specification. -/
theorem flush (h : Holds s q) : ∃ s', btLogFlush s =
    some (s', (q.accepted.rtake (logRingSize - 1)).map some) ∧
      Holds s' { q with accepted := [] } := by
  have hlt := length_rtake_lt q.accepted
  refine ⟨{ s with head := s.tail }, ?_, h.level, ?_, ?_, ?_⟩
  · rw [btLogFlush, h.tail, flushLoop_eq s.ring h.head hlt hlt, h.held, Option.map_some,
      List.nil_append]
  · change s.tail < _
    rw [h.tail]
    exact Nat.mod_lt _ (by decide)
  · simp only [List.rtake_nil, List.length_nil, Nat.add_zero]
    rw [h.tail, Nat.mod_mod]
  · simp only [List.rtake_nil, List.length_nil, List.map_nil, window_zero]

end Holds

/-- **Every call keeps the relation**, with the lines of the specification. -/
theorem step_simulates (s : Log α) (q : Queue α) (c : Call α) (h : Holds s q) :
    ∃ s' lines q', step s c = some (s', lines) ∧ Answers q c lines q' ∧ Holds s' q' := by
  cases c with
  | log level m =>
      refine ⟨_, _, _, rfl, rfl, ?_⟩
      by_cases hlevel : level ≤ q.level
      · rw [if_pos hlevel]
        exact h.log hlevel m
      · have hgt : level > s.logLevel := by
          rw [h.level]
          exact Int32.not_le.1 hlevel
        rw [if_neg hlevel, btLog, if_pos hgt]
        exact h
  | setLevel level => exact ⟨_, _, _, rfl, rfl, rfl, h.head, h.tail, h.held⟩
  | flush =>
      obtain ⟨s', hflush, h'⟩ := h.flush
      exact ⟨s', _, _, hflush, rfl, h'⟩

/-- **The log ring refines the queue that drops its oldest messages**: for every sequence of calls
of `bt_log`, `bt_log_set_level` and `bt_log_flush` from one thread, every call returns, and each
flush writes the last 4095 of the messages accepted since the flush before it, in order. -/
theorem log_refines_queue (calls : List (Call α)) :
    Refines step (fun _ _ => True) Answers (Log.initial α) ⟨2, []⟩ calls :=
  refines_of_simulation (fun s q c h _ => step_simulates s q c h) (holds_initial α) calls

/-! ### Whole calls are runs of the machine -/

section Machine

open Transition

variable {ι : Type u} [DecidableEq ι]

/-- The logger of the machine. -/
def observe (s : Sys ι) : Log (Msg ι) := ⟨s.ring, s.head, s.tail, s.logLevel⟩

/-- A thread that makes a call of `bt_log` without being interrupted. -/
theorem exists_run_btLog {s : Sys ι} {t : ι} (hpc : s.pc t = .idle) (level : Int32) :
    ∃ n s', run Logger.step s (.log t level :: List.replicate n (.move t)) = some s' ∧
      observe s' = btLog (observe s) level ⟨t, s.calls t⟩ ∧ s'.pc t = .idle ∧
      s'.flush = s.flush ∧ s'.out = s.out := by
  by_cases hlevel : level > s.logLevel
  · refine ⟨0, s, ?_, ?_, hpc, rfl, rfl⟩
    · simp [run, Logger.step, hpc, hlevel]
    · simp [btLog, observe, hlevel]
  · by_cases hfull : (s.tail + 1) % logRingSize = s.head
    · refine ⟨6, ?_⟩
      simp [run, Logger.step, hpc, hlevel, hfull, Sys.goto, btLog, observe, List.replicate]
    · refine ⟨4, ?_⟩
      simp [run, Logger.step, hpc, hlevel, hfull, Sys.goto, btLog, observe, List.replicate]

/-- The loop of a flush that is not interrupted. -/
theorem exists_run_flushLoop {ring : ℕ → Option (Msg ι)} {tail fuel head head' : ℕ}
    {out lines : List (Option (Msg ι))} {s : Sys ι} (hring : s.ring = ring)
    (hloop : flushLoop ring tail fuel head out = some (head', lines)) :
    ∃ more n, lines = out ++ more ∧
      run Logger.step { s with flush := .read head tail } (List.replicate n .flushMove) =
        some { s with flush := .idle, head := head', out := s.out ++ more.reduceOption } := by
  induction fuel generalizing head out s with
  | zero => cases hloop
  | succ fuel ih =>
      rw [flushLoop] at hloop
      split at hloop
      · next heq =>
          obtain ⟨rfl, rfl⟩ : head = head' ∧ out = lines := by simpa using hloop
          refine ⟨[], 1, (List.append_nil _).symm, ?_⟩
          simp [run, Logger.step, heq]
      · next hne =>
          obtain ⟨more, n, rfl, hrun⟩ :=
            ih (s := { s with out := s.out ++ (s.ring head).toList }) hring hloop
          refine ⟨ring head :: more, n + 1, by simp, ?_⟩
          have hstep : Logger.step { s with flush := .read head tail } .flushMove =
              some { s with
                flush := .read ((head + 1) % logRingSize) tail
                out := s.out ++ (s.ring head).toList } := if_neg hne
          have hout : (s.ring head).toList ++ more.reduceOption =
              (ring head :: more).reduceOption := by
            rw [hring]
            cases ring head with
            | none => exact (List.reduceOption_cons_of_none more).symm
            | some m => exact (List.reduceOption_cons_of_some m more).symm
          rw [List.replicate_succ, run_cons_eq hstep, hrun, List.append_assoc, hout]

/-- A flush that is not interrupted. -/
theorem exists_run_btLogFlush {s : Sys ι} (hidle : s.flush = .idle) {s' : Log (Msg ι)}
    {lines : List (Option (Msg ι))} (hflush : btLogFlush (observe s) = some (s', lines)) :
    ∃ n t, run Logger.step s (.flush :: List.replicate n .flushMove) = some t ∧
      observe t = s' ∧ t.pc = s.pc ∧ t.flush = .idle ∧ t.out = s.out ++ lines.reduceOption := by
  obtain ⟨⟨head, lines'⟩, hloop, hr⟩ := Option.map_eq_some_iff.1 hflush
  obtain ⟨rfl, rfl⟩ := Prod.mk.inj hr
  obtain ⟨more, n, hmore, hrun⟩ := exists_run_flushLoop (s := s) rfl hloop
  rw [List.nil_append] at hmore
  subst hmore
  have hbegin : Logger.step s .flush = some { s with flush := .loadTail s.head } := by
    simp [Logger.step, hidle]
  refine ⟨n + 1, { s with flush := .idle, head := head, out := s.out ++ lines'.reduceOption }, ?_,
    rfl, rfl, rfl, rfl⟩
  rw [run_cons_eq hbegin, List.replicate_succ]
  exact hrun

end Machine

end LoggerQueue
