/-
**The ring-buffer logger.**

`bt_log` puts a message into a ring from which `bt_log_flush` writes the messages to the output.
Its comment calls it safe to call from any thread, but the two indices are moved by separate loads
and stores: two calls of `bt_log` that overlap use the same slot, and the one that stores the tail
last may move it back; and a call that finds the ring full moves the head past the oldest message
with a load and a store, between which a flush may have moved it much further.  The head goes back
then, and the next flush writes messages a second time.

The output is in order, without repetition, in every run in which these two things do not happen:
no call of `bt_log` stores the tail while another one is between its load and its store of it, and
no call drops the oldest message while a flush is under way, or of a ring that is no longer the full
ring it has seen.

Main definitions:

* `Logger.Sys`, `Logger.Act`, `Logger.step`, `Logger.start` — threads that log, and one that
  flushes;
* `Logger.InOrder` — messages of one thread come in the order it logged them;
* `Logger.Undisturbed` — the condition on a step;
* `Logger.Logged` — the invariant: the messages logged so far, and how many of them have been
  passed.

Main results:

* `Logger.step_logged` — the invariant is kept;
* `Logger.written_once_in_order` — **in every undisturbed run each message is written at most once,
  and the messages of a thread in order**;
* `Logger.messages_written_twice` — two threads and a flush that write messages twice.
-/

import AspiraBroker.RingIndex
import AspiraBroker.TransitionRuns
import Mathlib.Data.Fintype.Basic
import Mathlib.Data.List.Nodup

set_option relaxedAutoImplicit false
set_option autoImplicit false

namespace Logger

open Transition

universe u

/-! ### The machine -/

/-- `LOG_RING_SIZE`. -/
def logRingSize : ℕ := 4096

theorem two_le_logRingSize : 2 ≤ logRingSize := by decide

/-- A message: the thread that logs it, and the number of its call of `bt_log`. -/
structure Msg (ι : Type u) where
  thread : ι
  number : ℕ
  deriving DecidableEq

/-- Where a thread stands in `bt_log`, with the tail and the head it has loaded. -/
inductive Pc (ι : Type u)
  | idle
  | load (m : Msg ι)
  | test (m : Msg ι) (tail : ℕ)
  | full (m : Msg ι) (tail : ℕ)
  | drop (m : Msg ι) (tail head : ℕ)
  | write (m : Msg ι) (tail : ℕ)
  | publish (m : Msg ι) (tail : ℕ)
  deriving DecidableEq

/-- The tail that the call has loaded, if it has. -/
def Pc.tail {ι : Type u} : Pc ι → Option ℕ
  | .idle | .load _ => none
  | .test _ tail | .full _ tail | .drop _ tail _ | .write _ tail | .publish _ tail => some tail

/-- The message of the call. -/
def Pc.msg {ι : Type u} : Pc ι → Option (Msg ι)
  | .idle => none
  | .load m | .test m _ | .full m _ | .drop m _ _ | .write m _ | .publish m _ => some m

/-- The call has made sure that there is room. -/
def Pc.cleared {ι : Type u} : Pc ι → Bool
  | .write _ _ | .publish _ _ => true
  | .idle | .load _ | .test _ _ | .full _ _ | .drop _ _ _ => false

/-- A thread that has made room has loaded the tail. -/
theorem Pc.tail_ne_none_of_cleared {ι : Type u} {pc : Pc ι} (h : pc.cleared = true) :
    pc.tail ≠ none := by
  cases pc with
  | write m tail | publish m tail => exact Option.some_ne_none tail
  | _ => cases h

/-- Where the flush stands, with the head and the tail it has loaded. -/
inductive FlushPc
  | idle
  | loadTail (head : ℕ)
  | read (head tail : ℕ)
  deriving DecidableEq

/-- The logger, the threads, how often each of them has called `bt_log`, and the output. -/
structure Sys (ι : Type u) where
  ring : ℕ → Option (Msg ι)
  head : ℕ
  tail : ℕ
  logLevel : Int32
  pc : ι → Pc ι
  flush : FlushPc
  calls : ι → ℕ
  out : List (Msg ι)

/-- A thread calls `bt_log`, or takes a step of it; the flushing thread begins a flush or takes a
step of it; the level is set. -/
inductive Act (ι : Type u)
  | log (t : ι) (level : Int32)
  | move (t : ι)
  | flush
  | flushMove
  | setLevel (level : Int32)

section Machine

variable {ι : Type u}

/-- A whole call of `bt_log` by thread `t`, without a full ring. -/
def logCall (t : ι) : List (Act ι) := .log t 2 :: List.replicate 4 (.move t)

/-- A whole flush that writes `n` messages. -/
def flushOf (n : ℕ) : List (Act ι) := .flush :: List.replicate (n + 2) .flushMove

/-- The logger as it is loaded. -/
def start (ι : Type u) : Sys ι where
  ring := fun _ => none
  head := 0
  tail := 0
  logLevel := 2
  pc := fun _ => .idle
  flush := .idle
  calls := fun _ => 0
  out := []

variable [DecidableEq ι]

/-- The thread moves on and the logger stays as it is. -/
def Sys.goto (s : Sys ι) (t : ι) (pc : Pc ι) : Sys ι :=
  { s with pc := Function.update s.pc t pc }

theorem goto_self (s : Sys ι) (t : ι) (pc : Pc ι) : (s.goto t pc).pc t = pc :=
  Function.update_self _ _ _

theorem goto_of_ne (s : Sys ι) {t u : ι} (hu : u ≠ t) (pc : Pc ι) :
    (s.goto t pc).pc u = s.pc u := Function.update_of_ne hu _ _

/-- After the move a fact about where a thread stands is one about the new place, or about another
thread. -/
theorem of_goto {P : Pc ι → Prop} {s : Sys ι} {t u : ι} {pc : Pc ι} (h : P ((s.goto t pc).pc u)) :
    (u = t ∧ P pc) ∨ (u ≠ t ∧ P (s.pc u)) := of_update h

/-- One step. -/
def step (s : Sys ι) : Act ι → Option (Sys ι)
  | .log t level =>
      match s.pc t with
      | .idle =>
          if level > s.logLevel then some s
          else some { s.goto t (.load ⟨t, s.calls t⟩) with
            calls := Function.update s.calls t (s.calls t + 1) }
      | _ => none
  | .move t =>
      match s.pc t with
      | .idle => none
      | .load m => some (s.goto t (.test m s.tail))
      | .test m tail =>
          if (tail + 1) % logRingSize = s.head then some (s.goto t (.full m tail))
          else some (s.goto t (.write m tail))
      | .full m tail => some (s.goto t (.drop m tail s.head))
      | .drop m tail head =>
          some ({ s with head := (head + 1) % logRingSize }.goto t (.write m tail))
      | .write m tail =>
          some ({ s with ring := Function.update s.ring tail (some m) }.goto t (.publish m tail))
      | .publish _ tail => some ({ s with tail := (tail + 1) % logRingSize }.goto t .idle)
  | .flush =>
      match s.flush with
      | .idle => some { s with flush := .loadTail s.head }
      | _ => none
  | .flushMove =>
      match s.flush with
      | .idle => none
      | .loadTail head => some { s with flush := .read head s.tail }
      | .read head tail =>
          if head = tail then some { s with head := head, flush := .idle }
          else
            -- a slot that was never written is an empty line
            some { s with
              flush := .read ((head + 1) % logRingSize) tail
              out := s.out ++ (s.ring head).toList }
  | .setLevel level => some { s with logLevel := level }

/-- Two messages of one thread stand in the order it logged them. -/
def Before (m m' : Msg ι) : Prop := m.thread = m'.thread → m.number < m'.number

/-- The messages of one thread come in the order it logged them. -/
def InOrder (s : Sys ι) : Prop := s.out.Pairwise Before

/-- No message was written twice. -/
def WrittenOnce (s : Sys ι) : Prop := s.out.Nodup

/-- The tail is stored while no other thread is between its load and its store of the tail; the
oldest message is dropped while no flush is under way, and of the full ring that was seen. -/
def Undisturbed (s : Sys ι) : Act ι → Prop
  | .move t =>
      match s.pc t with
      | .publish _ _ => ∀ u, u ≠ t → (s.pc u).tail = none
      | .drop _ _ head =>
          s.flush = .idle ∧ s.head = head ∧ (s.tail + 1) % logRingSize = s.head
      | _ => True
  | _ => True

instance [Fintype ι] (s : Sys ι) : (a : Act ι) → Decidable (Undisturbed s a)
  | .move t =>
      match hpc : s.pc t with
      | .publish _ _ =>
          decidable_of_iff (∀ u, u ≠ t → (s.pc u).tail = none) (by simp [Undisturbed, hpc])
      | .drop _ _ head =>
          decidable_of_iff (s.flush = .idle ∧ s.head = head ∧
            (s.tail + 1) % logRingSize = s.head) (by simp [Undisturbed, hpc])
      | .idle | .load _ | .test _ _ | .full _ _ | .write _ _ => isTrue (by simp [Undisturbed, hpc])
  | .log _ _ | .flush | .flushMove | .setLevel _ => isTrue trivial

/-! ### The invariant -/

/-- Where the flush is among the messages logged so far, and that it has written only messages
before that. -/
def FlushAt (entries : List (Msg ι)) (low : ℕ) (flush : FlushPc) (out : List (Msg ι)) : Prop :=
  match flush with
  | .idle => out.Sublist (entries.take low)
  | .loadTail head => head = low % logRingSize ∧ out.Sublist (entries.take low)
  | .read head tail => ∃ c e, head = c % logRingSize ∧ tail = e % logRingSize ∧
      low ≤ c ∧ c ≤ e ∧ e ≤ entries.length ∧ out.Sublist (entries.take c)

omit [DecidableEq ι] in
/-- The flush is where it was when another message is logged. -/
theorem FlushAt.append {entries : List (Msg ι)} {low : ℕ} {flush : FlushPc} {out : List (Msg ι)}
    (h : FlushAt entries low flush out) (hle : low ≤ entries.length) (m : Msg ι) :
    FlushAt (entries ++ [m]) low flush out := by
  cases flush with
  | idle | loadTail head =>
      simp only [FlushAt] at h ⊢
      rwa [List.take_append_of_le_length hle]
  | read head tail =>
      obtain ⟨c, e, hhead, htail, hlow, hce, he, hsub⟩ := h
      refine ⟨c, e, hhead, htail, hlow, hce, by rw [List.length_append]; omega, ?_⟩
      rwa [List.take_append_of_le_length (by omega)]

omit [DecidableEq ι] in
/-- What has been written is a part of the messages logged. -/
theorem FlushAt.sublist {entries : List (Msg ι)} {low : ℕ} {flush : FlushPc} {out : List (Msg ι)}
    (h : FlushAt entries low flush out) : out.Sublist entries := by
  cases flush with
  | idle => exact List.Sublist.trans h (List.take_sublist _ _)
  | loadTail head => exact h.2.trans (List.take_sublist _ _)
  | read head tail =>
      obtain ⟨c, e, -, -, -, -, -, hsub⟩ := h
      exact hsub.trans (List.take_sublist _ _)

/-- The messages logged so far are `entries`, and the first `low` of them have been written or
dropped: the head and the tail count them, the others are in their slots, and every thread has
logged its messages in order. -/
structure Logged (entries : List (Msg ι)) (low : ℕ) (s : Sys ι) : Prop where
  tail : s.tail = entries.length % logRingSize
  head : s.head = low % logRingSize
  low_le : low ≤ entries.length
  room : entries.length < low + logRingSize
  loaded : ∀ t i, (s.pc t).tail = some i → i = s.tail
  space : ∀ t, (s.pc t).cleared = true → entries.length + 1 < low + logRingSize
  written : ∀ t m i, s.pc t = .publish m i → (∀ u, u ≠ t → (s.pc u).tail = none) →
    s.ring i = some m
  stored : ∀ c, low ≤ c → c < entries.length →
    Ring.Stored logRingSize s.ring (entries.map some) c
  numbered : ∀ m ∈ entries, m.number < s.calls m.thread
  pending : ∀ t m, (s.pc t).msg = some m → m.thread = t ∧ m.number < s.calls t ∧
    ∀ m' ∈ entries, Before m' m
  ordered : entries.Pairwise Before
  flushAt : FlushAt entries low s.flush s.out

omit [DecidableEq ι] in
theorem logged_start : Logged [] 0 (start ι) where
  tail := rfl
  head := rfl
  low_le := Nat.le_refl _
  room := two_le_logRingSize.trans_lt' Nat.zero_lt_two
  loaded := by simp [start, Pc.tail]
  space := by simp [start, Pc.cleared]
  written := by simp [start]
  stored := by simp
  numbered := by simp
  pending := by simp [start, Pc.msg]
  ordered := List.Pairwise.nil
  flushAt := List.Sublist.refl _

namespace Logged

variable {entries : List (Msg ι)} {low : ℕ} {s : Sys ι}

/-- A thread moves on within its call. -/
theorem goto (h : Logged entries low s) {t : ι} {pc : Pc ι}
    (hmsg : ∀ m, pc.msg = some m → m.thread = t ∧ m.number < s.calls t ∧
      ∀ m' ∈ entries, Before m' m)
    (htail : ∀ i, pc.tail = some i → i = s.tail)
    (hstay : pc.tail = none → (s.pc t).tail = none)
    (hspace : pc.cleared = true → entries.length + 1 < low + logRingSize)
    (hwritten : ∀ m i, pc = .publish m i → s.ring i = some m) :
    Logged entries low (s.goto t pc) where
  tail := h.tail
  head := h.head
  low_le := h.low_le
  room := h.room
  loaded := by
    intro u i hu
    rcases of_goto (P := fun x => x.tail = some i) hu with ⟨-, hnew⟩ | ⟨-, hold⟩
    · exact htail i hnew
    · exact h.loaded u i hold
  space := by
    intro u hu
    rcases of_goto (P := fun x => x.cleared = true) hu with ⟨-, hnew⟩ | ⟨-, hold⟩
    · exact hspace hnew
    · exact h.space u hold
  written := by
    intro u m i hu halone
    rcases of_goto (P := fun x => x = .publish m i) hu with ⟨-, hnew⟩ | ⟨-, hold⟩
    · exact hwritten m i hnew
    · -- who is alone now was alone before: the thread that moved has not left
      refine h.written u m i hold fun v hv => ?_
      have hav := halone v hv
      by_cases hvt : v = t
      · subst hvt
        rw [goto_self] at hav
        exact hstay hav
      · rwa [goto_of_ne s hvt] at hav
  stored := h.stored
  numbered := h.numbered
  pending := by
    intro u m hu
    rcases of_goto (P := fun x => x.msg = some m) hu with ⟨rfl, hnew⟩ | ⟨-, hold⟩
    · exact hmsg m hnew
    · exact h.pending u m hold
  ordered := h.ordered
  flushAt := h.flushAt

/-- A thread begins a call; its message is the newest of the thread. -/
theorem call (h : Logged entries low s) {t : ι} (hpc : s.pc t = .idle) :
    Logged entries low { s.goto t (.load ⟨t, s.calls t⟩) with
      calls := Function.update s.calls t (s.calls t + 1) } := by
  have hgrow : ∀ u, s.calls u ≤ Function.update s.calls t (s.calls t + 1) u := by
    intro u
    by_cases hu : u = t
    · rw [hu, Function.update_self]
      exact Nat.le_succ _
    · rw [Function.update_of_ne hu]
  have hmore : Logged entries low { s with
      calls := Function.update s.calls t (s.calls t + 1) } :=
    { h with
      numbered := fun m hm => Nat.lt_of_lt_of_le (h.numbered m hm) (hgrow _)
      pending := fun u m hu => by
        obtain ⟨hthread, hlt, hmax⟩ := h.pending u m hu
        exact ⟨hthread, Nat.lt_of_lt_of_le hlt (hgrow u), hmax⟩ }
  refine hmore.goto ?_ (by simp [Pc.tail]) ?_ (by simp [Pc.cleared]) (by simp)
  · intro m hm
    obtain rfl := Option.some.inj hm
    refine ⟨rfl, ?_, fun m' hm' hthread => ?_⟩
    · change s.calls t < Function.update s.calls t (s.calls t + 1) t
      rw [Function.update_self]
      exact Nat.lt_succ_self _
    · have hlt := h.numbered m' hm'
      rwa [hthread] at hlt
  · intro _
    exact congrArg Pc.tail hpc

omit [DecidableEq ι] in
/-- The full test of a thread that has loaded the tail. -/
theorem full_iff (h : Logged entries low s) :
    (s.tail + 1) % logRingSize = s.head ↔ entries.length + 1 = low + logRingSize := by
  have hroom := h.room
  have hle := h.low_le
  rw [h.tail, h.head, Nat.mod_add_mod]
  constructor
  · intro heq
    by_contra hne
    have := Ring.index_inj (by omega) (by omega) heq.symm
    omega
  · intro heq
    rw [heq, Nat.add_mod_right]

omit [DecidableEq ι] in
/-- The oldest message of a full ring is dropped while no flush is under way. -/
theorem drop (h : Logged entries low s) (hidle : s.flush = .idle)
    (hfull : (s.tail + 1) % logRingSize = s.head) :
    Logged entries (low + 1) { s with head := (s.head + 1) % logRingSize } := by
  have hlen := h.full_iff.1 hfull
  have htwo := two_le_logRingSize
  have hat := h.flushAt
  rw [hidle] at hat
  exact
    { h with
      head := by
        change (s.head + 1) % logRingSize = (low + 1) % logRingSize
        rw [h.head, Nat.mod_add_mod]
      low_le := by omega
      room := by omega
      space := fun _ _ => by omega
      stored := fun c hlow => h.stored c (by omega)
      flushAt := by
        change FlushAt entries (low + 1) s.flush s.out
        rw [hidle]
        exact hat.trans (List.take_sublist_take_left (Nat.le_succ low)) }

omit [DecidableEq ι] in
/-- A thread writes the slot behind the newest message. -/
theorem write (h : Logged entries low s) {t : ι} {m : Msg ι} (hpc : s.pc t = .write m s.tail) :
    Logged entries low { s with ring := Function.update s.ring s.tail (some m) } where
  tail := h.tail
  head := h.head
  low_le := h.low_le
  room := h.room
  loaded := h.loaded
  space := h.space
  written := by
    intro u m' i hu halone
    -- a thread that is about to publish is not alone while `t` writes
    have htu : t ≠ u := by
      rintro rfl
      exact absurd (hpc.symm.trans hu) (by simp)
    have := halone t htu
    change (s.pc t).tail = none at this
    rw [hpc] at this
    cases this
  stored := by
    intro c hlow hlt
    refine (h.stored c hlow hlt).update_of_ne ?_ _
    rw [h.tail]
    intro heq
    have hroom := h.room
    have := Ring.index_inj hlt.le (by omega) heq
    omega
  numbered := h.numbered
  pending := h.pending
  ordered := h.ordered
  flushAt := h.flushAt

/-- A thread that is alone stores the tail. -/
theorem publish (h : Logged entries low s) {t : ι} {m : Msg ι} (hpc : s.pc t = .publish m s.tail)
    (halone : ∀ u, u ≠ t → (s.pc u).tail = none) :
    Logged (entries ++ [m]) low ({ s with tail := (s.tail + 1) % logRingSize }.goto t .idle) := by
  have hspace := h.space t (by rw [hpc]; rfl)
  have hle := h.low_le
  obtain ⟨hthread, hnum, hnew⟩ := h.pending t m (by rw [hpc]; rfl)
  have hout : ∀ u, (((s.goto t .idle).pc u).tail) = none := by
    intro u
    by_cases hu : u = t
    · rw [hu, goto_self]
      rfl
    · rw [goto_of_ne s hu]
      exact halone u hu
  have hlen : (entries ++ [m]).length = entries.length + 1 := by simp
  constructor
  case tail =>
    change (s.tail + 1) % logRingSize = _
    rw [h.tail, Nat.mod_add_mod, hlen]
  case head => exact h.head
  case low_le => omega
  case room => omega
  case loaded =>
    intro u i hu
    cases (hout u).symm.trans hu
  case space =>
    intro u hu
    exact absurd (hout u) (Pc.tail_ne_none_of_cleared hu)
  case written =>
    intro u m' i hu
    have hnone := hout u
    change (s.goto t .idle).pc u = .publish m' i at hu
    rw [hu] at hnone
    cases hnone
  case stored =>
    intro c hlow hlt
    change Ring.Stored logRingSize s.ring _ c
    rw [List.map_append]
    rcases Nat.lt_or_ge c entries.length with hold | hnew'
    · exact (h.stored c hlow hold).append _
    · obtain rfl : c = entries.length := by omega
      have hring := h.written t m s.tail hpc halone
      rw [h.tail] at hring
      simpa [Ring.Stored] using hring.symm
  case numbered =>
    intro m' hm'
    rcases List.mem_append.1 hm' with hm' | hm'
    · exact h.numbered m' hm'
    · obtain rfl := List.mem_singleton.1 hm'
      rw [hthread]
      exact hnum
  case pending =>
    intro u m' hu
    rcases of_goto (P := fun x => x.msg = some m') hu with ⟨-, hidle⟩ | ⟨hut, hold⟩
    · cases hidle
    · obtain ⟨hthread', hnum', hnew'⟩ := h.pending u m' hold
      refine ⟨hthread', hnum', fun m'' hm'' hsame => ?_⟩
      rcases List.mem_append.1 hm'' with hm'' | hm''
      · exact hnew' m'' hm'' hsame
      · obtain rfl := List.mem_singleton.1 hm''
        exact absurd (hthread'.symm.trans (hsame.symm.trans hthread)) hut
  case ordered =>
    refine List.pairwise_append.2 ⟨h.ordered, List.pairwise_singleton _ _, ?_⟩
    intro m' hm' m'' hm''
    obtain rfl := List.mem_singleton.1 hm''
    exact hnew m' hm'
  case flushAt => exact h.flushAt.append hle m

/-- A step of the flush: what it has written is a part of the messages before where it is. -/
theorem flushStep (h : Logged entries low s) {s' : Sys ι} (hstep : step s .flushMove = some s') :
    ∃ low', Logged entries low' s' := by
  have hat := h.flushAt
  have hle := h.low_le
  have hroom := h.room
  simp only [step] at hstep
  split at hstep
  · cases hstep
  next head hf =>
    cases hstep
    rw [hf] at hat
    obtain ⟨hhead, hsub⟩ := hat
    refine ⟨low, { h with flushAt := ?_ }⟩
    exact ⟨low, entries.length, hhead, h.tail, Nat.le_refl _, hle, Nat.le_refl _, hsub⟩
  next head tail hf =>
    rw [hf] at hat
    obtain ⟨c, e, hhead, htail, hlow, hce, he, hsub⟩ := hat
    split at hstep <;> cases hstep
    next hend =>
      -- the flush has reached the tail it loaded
      refine ⟨c, { h with
        head := hhead
        low_le := by omega
        room := by omega
        space := fun t ht => ?_
        stored := fun d hd => h.stored d (by omega)
        flushAt := hsub }⟩
      have := h.space t ht
      omega
    next hmore =>
      have hlt : c < e := by
        refine Nat.lt_of_le_of_ne hce ?_
        rintro rfl
        exact hmore (hhead.trans htail.symm)
      refine ⟨low, { h with flushAt := ?_ }⟩
      refine ⟨c + 1, e, ?_, htail, by omega, hlt, he, ?_⟩
      · rw [hhead, Nat.mod_add_mod]
      · have hstored : (entries.map some)[c]? = some (s.ring head) := by
          rw [hhead]
          exact h.stored c hlow (by omega)
        have hget : c < entries.length := by omega
        have hring : s.ring head = some entries[c] := by simpa [hget] using hstored.symm
        rw [hring, List.take_succ_eq_append_getElem hget]
        exact hsub.append (List.Sublist.refl _)

/-- A step of a call of `bt_log`, by where the thread stands. -/
theorem moveStep (h : Logged entries low s) {t : ι} {s' : Sys ι} (hc : Undisturbed s (.move t))
    (hstep : step s (.move t) = some s') : ∃ entries' low', Logged entries' low' s' := by
  have hpend := h.pending t
  have hload := h.loaded t
  simp only [step] at hstep
  simp only [Undisturbed] at hc
  split at hstep
  · cases hstep
  next m hpc =>
    cases hstep
    rw [hpc] at hpend
    refine ⟨entries, low, h.goto hpend ?_ (by simp [Pc.tail]) (by simp [Pc.cleared]) (by simp)⟩
    intro i hi
    exact (Option.some.inj hi).symm
  next m tail hpc =>
    rw [hpc] at hpend hload
    obtain rfl := hload tail rfl
    split at hstep <;> cases hstep
    · exact ⟨entries, low, h.goto hpend hload (by simp [Pc.tail]) (by simp [Pc.cleared])
        (by simp)⟩
    next hnot =>
      refine ⟨entries, low, h.goto hpend hload (by simp [Pc.tail]) (fun _ => ?_) (by simp)⟩
      have hroom := h.room
      have hne := mt h.full_iff.2 hnot
      omega
  next m tail hpc =>
    cases hstep
    rw [hpc] at hpend hload
    exact ⟨entries, low, h.goto hpend hload (by simp [Pc.tail]) (by simp [Pc.cleared]) (by simp)⟩
  next m tail head hpc =>
    cases hstep
    rw [hpc] at hpend hload hc
    obtain ⟨hidle, rfl, hfull⟩ := hc
    have hlen := h.full_iff.1 hfull
    exact ⟨entries, low + 1, (h.drop hidle hfull).goto hpend hload (by simp [Pc.tail])
      (fun _ => by omega) (by simp)⟩
  next m tail hpc =>
    cases hstep
    have hspace := h.space t (by rw [hpc]; rfl)
    rw [hpc] at hpend hload
    obtain rfl := hload tail rfl
    refine ⟨entries, low, (h.write hpc).goto hpend hload (by simp [Pc.tail]) (fun _ => hspace) ?_⟩
    intro m' i hm'
    cases hm'
    exact Function.update_self _ _ _
  next m tail hpc =>
    cases hstep
    rw [hpc] at hload hc
    obtain rfl := hload tail rfl
    exact ⟨entries ++ [m], low, h.publish hpc hc⟩

end Logged

/-- **The invariant is kept** by every undisturbed step. -/
theorem step_logged {s s' : Sys ι} {a : Act ι} (h : ∃ entries low, Logged entries low s)
    (hc : Undisturbed s a) (hstep : step s a = some s') :
    ∃ entries low, Logged entries low s' := by
  obtain ⟨entries, low, h⟩ := h
  cases a with
  | log t level =>
      simp only [step] at hstep
      split at hstep
      next hpc =>
        split at hstep <;> cases hstep
        · exact ⟨entries, low, h⟩
        · exact ⟨entries, low, h.call hpc⟩
      · cases hstep
  | move t => exact h.moveStep hc hstep
  | flush =>
      simp only [step] at hstep
      split at hstep
      next hf =>
        cases hstep
        have hat := h.flushAt
        rw [hf] at hat
        exact ⟨entries, low, { h with flushAt := ⟨h.head, hat⟩ }⟩
      · cases hstep
  | flushMove =>
      obtain ⟨low', h'⟩ := h.flushStep hstep
      exact ⟨entries, low', h'⟩
  | setLevel level =>
      cases hstep
      exact ⟨entries, low, { h with }⟩

/-! ### The results -/

omit [DecidableEq ι] in
/-- A list in which the messages of every thread come in order has none twice. -/
theorem nodup_of_pairwise_before {ms : List (Msg ι)} (h : ms.Pairwise Before) : ms.Nodup := by
  refine h.imp fun {m m'} hbefore heq => ?_
  have hlt := hbefore (congrArg Msg.thread heq)
  rw [heq] at hlt
  exact Nat.lt_irrefl _ hlt

/-- **In every undisturbed run each message is written at most once, and the messages of a thread
are written in the order it logged them.** -/
theorem written_once_in_order {as : List (Act ι)} (h : Along step Undisturbed (start ι) as) :
    Throughout step (fun s => WrittenOnce s ∧ InOrder s) (start ι) as := by
  refine throughout_of_invariant (I := fun s => ∃ entries low, Logged entries low s)
    (fun s a s' hs hc hstep => step_logged hs hc hstep) ?_ ⟨[], 0, logged_start⟩ h
  rintro s ⟨entries, low, hs⟩
  have hord : s.out.Pairwise Before := hs.ordered.sublist hs.flushAt.sublist
  exact ⟨nodup_of_pairwise_before hord, hord⟩

end Machine

/-- Two threads log one message each while a flush is under way. -/
theorem written_once_in_order_two_threads :
    Along step Undisturbed (start Bool)
        (logCall true ++ [.flush, .flushMove] ++ logCall false ++ [.flushMove, .flushMove]) ∧
      Throughout step (fun s => WrittenOnce s ∧ InOrder s) (start Bool)
        (logCall true ++ [.flush, .flushMove] ++ logCall false ++ [.flushMove, .flushMove]) :=
  ⟨by decide, written_once_in_order (by decide)⟩

/-! ### A head that goes back -/

/-- The second thread loads the tail and stops.  When it goes on, the slot after that tail is the
head, so it takes the ring for full and loads the head; it stores the head only after the first
thread has logged three messages and a flush has written them. -/
def staleDrop : List (Act Bool) :=
  [.log true 2, .move true] ++ logCall false ++ flushOf 1 ++ [.move true, .move true] ++
    logCall false ++ logCall false ++ logCall false ++ flushOf 3 ++ [.move true] ++ flushOf 2

/-- The last flush writes two messages that were written before. -/
theorem messages_written_twice :
    ∃ s, run step (start Bool) staleDrop = some s ∧ ¬ WrittenOnce s ∧ ¬ InOrder s := by
  have hout : (run step (start Bool) staleDrop).map Sys.out =
      some [⟨false, 0⟩, ⟨false, 1⟩, ⟨false, 2⟩, ⟨false, 3⟩, ⟨false, 2⟩, ⟨false, 3⟩] := by decide
  obtain ⟨s, hrun, hs⟩ := Option.map_eq_some_iff.1 hout
  refine ⟨s, hrun, ?_, ?_⟩
  · rw [WrittenOnce, hs]
    decide
  · rw [InOrder, hs]
    intro h
    have hlt : 3 < 2 := (List.pairwise_iff_getElem.1 h) 3 4 (by decide) (by decide) (by decide) rfl
    exact absurd hlt (by decide)

end Logger
