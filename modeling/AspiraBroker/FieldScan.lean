/-
**Fields written as `key=value`, separated by a mark.**

A text of fields can be read in two ways.  The *split* reading cuts the text at every separator and
then looks into each piece on its own.  The *scanning* reading goes through the text once: it skips
separators and blanks, looks for the next `=` whatever lies between, and takes what follows up to
the next separator for the value.  The two differ on a piece without `=` that is not blank.  The
split reading passes over it; the scanning reading takes it for the beginning of the next key, and
so loses the field behind it, whose key now contains a separator.

This module works over an arbitrary alphabet with three marks.  Read through keys without a
separator, the scanning reading gives the fields of those pieces that do not come behind a piece of
that kind.

Main definitions:

* `Fields.Marks` — a separator, an equality mark and a blank;
* `Fields.scan`, `Fields.scanned` — the scanning reading;
* `Fields.splitFields` — the split reading;
* `Fields.kept` — the fields of the pieces that the scanning reading does not lose;
* `Fields.lastValue` — the last value that a list of fields gives for a key.

Main results:

* `Fields.scanned_eq` — the scan ends by itself;
* `Fields.filter_scanned` — **what the scanning reading reads**;
* `Fields.kept_eq_filterMap` — it is the split reading when every piece without `=` is blank;
* `Fields.foldl_eq_lastValue` — what a left-to-right interpretation of fields makes of a key.
-/

import Mathlib.Data.List.Basic
import Mathlib.Data.List.TakeWhile

set_option relaxedAutoImplicit false
set_option autoImplicit false

namespace Fields

universe u v w x

/-! ### The last value of a key -/

section LastValue

variable {κ : Type u} {β : Type v} [DecidableEq κ]

/-- The last value that the fields give for the key `k`. -/
def lastValue (k : κ) : List (κ × β) → Option β
  | [] => none
  | f :: fs => (lastValue k fs).or (if f.1 = k then some f.2 else none)

@[simp] theorem lastValue_nil (k : κ) : lastValue k ([] : List (κ × β)) = none := rfl

theorem lastValue_cons (k : κ) (f : κ × β) (fs : List (κ × β)) :
    lastValue k (f :: fs) = (lastValue k fs).or (if f.1 = k then some f.2 else none) := rfl

/-- **A left-to-right interpretation of the fields**, one part of whose result is set by the fields
with the key `k` and by no other, has there what the last of them sets. -/
theorem foldl_eq_lastValue {γ : Type w} {δ : Type x} {f : γ → κ × β → γ} {π : γ → δ} {k : κ}
    {g : β → δ} (hset : ∀ r v, π (f r (k, v)) = g v)
    (hkeep : ∀ r k' v, k' ≠ k → π (f r (k', v)) = π r) (fs : List (κ × β)) (r : γ) :
    π (fs.foldl f r) = ((lastValue k fs).map g).getD (π r) := by
  induction fs generalizing r with
  | nil => rfl
  | cons field fs ih =>
      rw [List.foldl_cons, ih, lastValue_cons]
      cases lastValue k fs with
      | some v => rfl
      | none =>
          obtain ⟨k', v⟩ := field
          by_cases hk : k' = k
          · subst hk
            simpa using hset r v
          · simpa [hk] using hkeep r k' v hk

end LastValue

/-! ### The two readings -/

/-- The marks: a separator of fields, the mark between key and value, and a blank. -/
structure Marks (α : Type u) where
  sep : α
  eq : α
  blank : α
  sep_ne_eq : sep ≠ eq
  blank_ne_eq : blank ≠ eq

section Readings

variable {α : Type u} [DecidableEq α] (M : Marks α)

/-- The text behind the separators and blanks at its start. -/
def skip (text : List α) : List α := text.dropWhile fun b => b = M.sep || b = M.blank

/-- What stands before the first equality mark. -/
def key (p : List α) : List α := p.takeWhile (· ≠ M.eq)

/-- What stands behind the first equality mark. -/
def afterKey (p : List α) : List α := (p.dropWhile (· ≠ M.eq)).tail

/-- The value: from behind the first equality mark up to the next separator. -/
def value (p : List α) : List α := (afterKey M p).takeWhile (· ≠ M.sep)

/-- What follows the value. -/
def afterField (p : List α) : List α := (afterKey M p).dropWhile (· ≠ M.sep)

/-- The scanning reading, for at most `fuel` fields. -/
def scan : ℕ → List α → List (List α × List α)
  | 0, _ => []
  | fuel + 1, text =>
      let p := skip M text
      if M.eq ∈ p then (key M p, value M p) :: scan fuel (afterField M p) else []

/-- The scanning reading. -/
def scanned (text : List α) : List (List α × List α) := scan M text.length text

/-- A piece without the blanks at its start. -/
def trim (piece : List α) : List α := piece.dropWhile (· = M.blank)

/-- The field in a piece, if it has an equality mark. -/
def pieceField (piece : List α) : Option (List α × List α) :=
  if M.eq ∈ trim M piece then some (key M (trim M piece), afterKey M (trim M piece)) else none

/-- The split reading. -/
def splitFields (text : List α) : List (List α × List α) :=
  (text.splitOn M.sep).filterMap (pieceField M)

/-- The fields of the pieces that do not come, blank pieces aside, behind a piece without an
equality mark; `lost` says that such a piece has come before. -/
def kept : Bool → List (List α) → List (List α × List α)
  | _, [] => []
  | lost, piece :: pieces =>
      if M.eq ∈ trim M piece then
        (if lost then [] else [(key M (trim M piece), afterKey M (trim M piece))]) ++
          kept false pieces
      else kept (lost || trim M piece ≠ []) pieces

/-! ### The scan ends by itself -/

variable {M}

theorem length_skip_le (text : List α) : (skip M text).length ≤ text.length :=
  (List.dropWhile_sublist _).length_le

/-- A field takes at least the equality mark. -/
theorem length_afterField_lt {p : List α} (h : M.eq ∈ p) : (afterField M p).length < p.length := by
  have hfield : (afterField M p).length ≤ (afterKey M p).length :=
    (List.dropWhile_sublist _).length_le
  have hdrop : (p.dropWhile (· ≠ M.eq)).length ≤ p.length :=
    (List.dropWhile_sublist _).length_le
  have hne : p.dropWhile (· ≠ M.eq) ≠ [] := by
    intro hnil
    have := List.dropWhile_eq_nil_iff.1 hnil _ h
    simp at this
  have hpos := List.length_pos_iff.2 hne
  have htail : (afterKey M p).length = (p.dropWhile (· ≠ M.eq)).length - 1 := List.length_tail
  omega

/-- More rounds than symbols change nothing. -/
theorem scan_of_le {n m : ℕ} {text : List α} (hn : text.length ≤ n) (hm : text.length ≤ m) :
    scan M n text = scan M m text := by
  induction n generalizing m text with
  | zero =>
      obtain rfl : text = [] := List.eq_nil_of_length_eq_zero (Nat.le_zero.1 hn)
      cases m with
      | zero => rfl
      | succ m => simp [scan, skip]
  | succ n ih =>
      cases m with
      | zero =>
          obtain rfl : text = [] := List.eq_nil_of_length_eq_zero (Nat.le_zero.1 hm)
          simp [scan, skip]
      | succ m =>
          have hskip := length_skip_le (M := M) text
          simp only [scan]
          split
          case isTrue heq =>
            have hlt := length_afterField_lt heq
            rw [ih (m := m) (by omega) (by omega)]
          case isFalse => rfl

/-- The scan ends by itself: it goes on as long as there is an equality mark ahead. -/
theorem scanned_eq (text : List α) :
    scanned M text =
      if M.eq ∈ skip M text then
        (key M (skip M text), value M (skip M text)) :: scanned M (afterField M (skip M text))
      else [] := by
  rw [scanned, scan_of_le (Nat.le_refl _) (Nat.le_succ _)]
  simp only [scan]
  split
  case isTrue heq =>
    have hlt := length_afterField_lt heq
    have hskip := length_skip_le (M := M) text
    rw [scanned, scan_of_le (by omega) (Nat.le_refl _)]
  case isFalse => rfl

/-! ### Pieces -/

theorem splitOn_sep_append {a : List α} (ha : M.sep ∉ a) (b : List α) :
    (a ++ M.sep :: b).splitOn M.sep = a :: b.splitOn M.sep := by
  have hone : List.splitOnP (· == M.sep) a = [a] := List.splitOn_eq_singleton ha
  rw [List.splitOn, List.splitOnP_append_cons _ _ (by simp), hone, List.singleton_append]
  rfl

theorem splitOn_cons_sep (b : List α) :
    (M.sep :: b).splitOn M.sep = [] :: b.splitOn M.sep :=
  splitOn_sep_append (M := M) (a := []) List.not_mem_nil b

/-- Induction over the pieces of a text. -/
@[elab_as_elim]
theorem pieces_induction {P : List α → Prop} (hlast : ∀ a, M.sep ∉ a → P a)
    (hcons : ∀ a b, M.sep ∉ a → P b → P (a ++ M.sep :: b)) (text : List α) : P text := by
  induction hn : text.length using Nat.strong_induction_on generalizing text with
  | _ n ih =>
      by_cases hsep : M.sep ∈ text
      · obtain ⟨a, b, rfl, ha⟩ := List.eq_append_cons_of_mem hsep
        refine hcons a b ha (ih b.length ?_ b rfl)
        simp only [List.length_append, List.length_cons] at hn
        omega
      · exact hlast text hsep

theorem kept_blank (lost : Bool) (pieces : List (List α)) :
    kept M lost ([] :: pieces) = kept M lost pieces := by
  simp [kept, trim]

/-- Blanks at the start of a piece do not matter. -/
theorem kept_modifyHead_blank (lost : Bool) (pieces : List (List α)) :
    kept M lost (pieces.modifyHead (M.blank :: ·)) = kept M lost pieces := by
  cases pieces with
  | nil => rfl
  | cons piece pieces => simp [kept, trim]

/-- Neither do separators and blanks at the start of the text. -/
theorem kept_skip (lost : Bool) (text : List α) :
    kept M lost ((skip M text).splitOn M.sep) = kept M lost (text.splitOn M.sep) := by
  induction text with
  | nil => rfl
  | cons b text ih =>
      by_cases hsep : b = M.sep
      · subst hsep
        have hskip : skip M (M.sep :: text) = skip M text := by simp [skip]
        rw [hskip, splitOn_cons_sep, kept_blank, ih]
      · by_cases hblank : b = M.blank
        · subst hblank
          have hskip : skip M (M.blank :: text) = skip M text := by simp [skip]
          have hsplit : (M.blank :: text).splitOn M.sep =
              (text.splitOn M.sep).modifyHead (M.blank :: ·) := by
            rw [List.splitOn, List.splitOnP_cons_eq_if_modifyHead, if_neg (by simpa using hsep)]
            rfl
          rw [hskip, hsplit, kept_modifyHead_blank, ih]
        · have hskip : skip M (b :: text) = b :: text := by simp [skip, hsep, hblank]
          rw [hskip]

/-! ### What the scanning reading reads -/

theorem eq_mem_trim_iff {piece : List α} : M.eq ∈ trim M piece ↔ M.eq ∈ piece := by
  induction piece with
  | nil => simp [trim]
  | cons b piece ih =>
      by_cases hb : b = M.blank
      · subst hb
        have htrim : trim M (M.blank :: piece) = trim M piece := by simp [trim]
        rw [htrim, ih, List.mem_cons, or_iff_right M.blank_ne_eq.symm]
      · have htrim : trim M (b :: piece) = b :: piece := by simp [trim, hb]
        rw [htrim]

theorem kept_cons_of_mem {piece : List α} (h : M.eq ∈ piece) (lost : Bool)
    (pieces : List (List α)) :
    kept M lost (piece :: pieces) =
      (if lost then [] else [(key M (trim M piece), afterKey M (trim M piece))]) ++
        kept M false pieces := by
  rw [kept, if_pos (eq_mem_trim_iff.2 h)]

theorem kept_cons_of_not_mem {piece : List α} (h : M.eq ∉ piece) (lost : Bool)
    (pieces : List (List α)) :
    kept M lost (piece :: pieces) = kept M (lost || trim M piece ≠ []) pieces := by
  rw [kept, if_neg (mt eq_mem_trim_iff.1 h)]

theorem afterKey_append {a : List α} (ha : M.eq ∈ a) (b : List α) :
    afterKey M (a ++ b) = afterKey M a ++ b := by
  have hne : a.dropWhile (· ≠ M.eq) ≠ [] := by
    intro hnil
    have := List.dropWhile_eq_nil_iff.1 hnil _ ha
    simp at this
  rw [afterKey, List.dropWhile_append, if_neg (by simpa using hne), List.tail_append_of_ne_nil hne,
    afterKey]

theorem afterKey_append_of_not_mem {a : List α} (ha : M.eq ∉ a) (b : List α) :
    afterKey M (a ++ M.sep :: b) = afterKey M b := by
  have hall : ∀ c ∈ a ++ [M.sep], decide (c ≠ M.eq) = true := by
    intro c hc
    rcases List.mem_append.1 hc with hc | hc
    · exact decide_eq_true fun heq => ha (heq ▸ hc)
    · obtain rfl := List.mem_singleton.1 hc
      exact decide_eq_true M.sep_ne_eq
  have hsplit : a ++ M.sep :: b = (a ++ [M.sep]) ++ b := by simp
  rw [afterKey, hsplit, List.dropWhile_append_of_pos hall, afterKey]

theorem sep_not_mem_afterKey {a : List α} (ha : M.sep ∉ a) : M.sep ∉ afterKey M a :=
  fun h => ha ((List.dropWhile_sublist _).subset (List.mem_of_mem_tail h))

theorem ne_sep_of_mem {a : List α} (ha : M.sep ∉ a) :
    ∀ c ∈ a, decide (c ≠ M.sep) = true := by
  intro c hc
  refine decide_eq_true ?_
  rintro rfl
  exact ha hc

/-- In front of a separator the value is the rest of the piece. -/
theorem dropWhile_sep_append {a : List α} (ha : M.sep ∉ a) (b : List α) :
    (a ++ M.sep :: b).dropWhile (· ≠ M.sep) = M.sep :: b := by
  rw [List.dropWhile_append_of_pos (ne_sep_of_mem ha)]
  simp

theorem takeWhile_sep_append {a : List α} (ha : M.sep ∉ a) (b : List α) :
    (a ++ M.sep :: b).takeWhile (· ≠ M.sep) = a := by
  rw [List.takeWhile_append_of_pos (ne_sep_of_mem ha)]
  simp

theorem dropWhile_sep {a : List α} (ha : M.sep ∉ a) : a.dropWhile (· ≠ M.sep) = [] :=
  List.dropWhile_eq_nil_iff.2 (ne_sep_of_mem ha)

theorem takeWhile_sep {a : List α} (ha : M.sep ∉ a) : a.takeWhile (· ≠ M.sep) = a :=
  List.takeWhile_eq_self_iff.2 (ne_sep_of_mem ha)

/-- Behind a piece without an equality mark the next field is lost. -/
theorem kept_lost (text : List α) :
    kept M true (text.splitOn M.sep) =
      if M.eq ∈ text then kept M false ((afterField M text).splitOn M.sep) else [] := by
  induction text using pieces_induction (M := M) with
  | hlast a ha =>
      rw [List.splitOn_eq_singleton ha]
      by_cases heq : M.eq ∈ a
      · rw [kept_cons_of_mem heq, if_pos heq, afterField, dropWhile_sep (sep_not_mem_afterKey ha)]
        simp [kept, trim]
      · rw [kept_cons_of_not_mem heq, if_neg heq, kept]
  | hcons a b ha ih =>
      rw [splitOn_sep_append ha]
      by_cases heq : M.eq ∈ a
      · rw [kept_cons_of_mem heq, if_pos (List.mem_append_left _ heq), afterField,
          afterKey_append heq, dropWhile_sep_append (sep_not_mem_afterKey ha), splitOn_cons_sep,
          kept_blank]
        rfl
      · have hmem : M.eq ∈ a ++ M.sep :: b ↔ M.eq ∈ b := by
          simp [heq, M.sep_ne_eq.symm]
        rw [kept_cons_of_not_mem heq, Bool.true_or, ih, afterField, afterField,
          afterKey_append_of_not_mem heq]
        simp only [hmem]

/-- A text without an equality mark has no fields. -/
theorem kept_of_not_mem {text : List α} (h : M.eq ∉ text) (lost : Bool) :
    kept M lost (text.splitOn M.sep) = [] := by
  induction text using pieces_induction (M := M) generalizing lost with
  | hlast a ha => rw [List.splitOn_eq_singleton ha, kept_cons_of_not_mem h, kept]
  | hcons a b ha ih =>
      rw [List.mem_append, List.mem_cons, not_or, not_or] at h
      rw [splitOn_sep_append ha, kept_cons_of_not_mem h.1]
      exact ih h.2.2 _

/-- The text behind skipped separators and blanks starts with neither. -/
theorem head_skip {text rest : List α} {c : α} (h : skip M text = c :: rest) :
    c ≠ M.sep ∧ c ≠ M.blank := by
  have hnot := List.head?_dropWhile_not (fun b => b = M.sep || b = M.blank) text
  rw [show text.dropWhile (fun b => b = M.sep || b = M.blank) = c :: rest from h] at hnot
  simpa using hnot

theorem key_append {a : List α} (ha : M.eq ∈ a) (b : List α) : key M (a ++ b) = key M a := by
  obtain ⟨c, d, rfl, hc⟩ := List.eq_append_cons_of_mem ha
  have hall : ∀ x ∈ c, decide (x ≠ M.eq) = true := by
    intro x hx
    refine decide_eq_true ?_
    rintro rfl
    exact hc hx
  simp only [key, List.append_assoc, List.cons_append]
  rw [List.takeWhile_append_of_pos hall, List.takeWhile_append_of_pos hall]
  simp

theorem key_append_of_not_mem {a : List α} (ha : M.eq ∉ a) (b : List α) :
    M.sep ∈ key M (a ++ M.sep :: b) := by
  have hall : ∀ x ∈ a, decide (x ≠ M.eq) = true := by
    intro x hx
    refine decide_eq_true ?_
    rintro rfl
    exact ha hx
  rw [key, List.takeWhile_append_of_pos hall, List.takeWhile_cons_of_pos (by simp [M.sep_ne_eq])]
  simp

/-- One round of the scan: its field counts if the key has no separator, and is lost otherwise. -/
theorem kept_round {p : List α} (hhead : ∀ c rest, p = c :: rest → c ≠ M.sep ∧ c ≠ M.blank)
    (heq : M.eq ∈ p) :
    kept M false (p.splitOn M.sep) =
      [(key M p, value M p)].filter (fun f => M.sep ∉ f.1) ++
        kept M false ((afterField M p).splitOn M.sep) := by
  have htrim : ∀ a b, p = a ++ b → trim M a = a := by
    intro a b hab
    cases a with
    | nil => rfl
    | cons c a => simp [trim, (hhead c (a ++ b) hab).2]
  have hkey : ∀ {a : List α}, M.sep ∉ a → M.sep ∉ key M a :=
    fun ha h => ha ((List.takeWhile_sublist _).subset h)
  by_cases hsep : M.sep ∈ p
  · obtain ⟨a, b, rfl, ha⟩ := List.eq_append_cons_of_mem hsep
    rw [splitOn_sep_append ha]
    by_cases hin : M.eq ∈ a
    · -- the first piece is a field
      rw [kept_cons_of_mem hin, htrim a _ rfl, key_append hin, value, afterField,
        afterKey_append hin, takeWhile_sep_append (sep_not_mem_afterKey ha),
        dropWhile_sep_append (sep_not_mem_afterKey ha), splitOn_cons_sep, kept_blank,
        List.filter_cons_of_pos (by simpa using hkey ha)]
      rfl
    · -- the first piece is no field, and not blank
      have hne : trim M a ≠ [] := by
        rw [htrim a _ rfl]
        rintro rfl
        exact (hhead M.sep b rfl).1 rfl
      have hb : M.eq ∈ b := by
        rcases List.mem_append.1 heq with h | h
        · exact absurd h hin
        · exact (List.mem_cons.1 h).resolve_left M.sep_ne_eq.symm
      rw [kept_cons_of_not_mem hin, Bool.false_or, decide_eq_true hne, kept_lost, if_pos hb,
        List.filter_cons_of_neg (by simpa using key_append_of_not_mem hin b), List.filter_nil,
        List.nil_append, afterField, afterField, afterKey_append_of_not_mem hin]
  · rw [List.splitOn_eq_singleton hsep, kept_cons_of_mem heq, htrim p [] (List.append_nil p).symm,
      value, afterField, takeWhile_sep (sep_not_mem_afterKey hsep),
      dropWhile_sep (sep_not_mem_afterKey hsep),
      List.filter_cons_of_pos (by simpa using hkey hsep)]
    rfl

/-- **What the scanning reading reads**: of the fields whose keys have no separator, those of the
pieces that do not come behind a piece without an equality mark. -/
theorem filter_scanned (text : List α) :
    (scanned M text).filter (fun f => M.sep ∉ f.1) = kept M false (text.splitOn M.sep) := by
  induction hn : text.length using Nat.strong_induction_on generalizing text with
  | _ n ih =>
      rw [scanned_eq, ← kept_skip]
      by_cases heq : M.eq ∈ skip M text
      · have hlt := length_afterField_lt heq
        have hle := length_skip_le (M := M) text
        rw [if_pos heq, kept_round (fun c rest => head_skip) heq, ← ih _ (by omega) _ rfl,
          ← List.filter_append, List.singleton_append]
      · rw [if_neg heq, List.filter_nil, kept_of_not_mem heq]

/-- When every piece without an equality mark is blank, nothing is lost. -/
theorem kept_eq_filterMap {pieces : List (List α)}
    (h : ∀ piece ∈ pieces, M.eq ∈ piece ∨ trim M piece = []) :
    kept M false pieces = pieces.filterMap (pieceField M) := by
  induction pieces with
  | nil => rfl
  | cons piece pieces ih =>
      have hrest := ih fun q hq => h q (List.mem_cons_of_mem _ hq)
      by_cases heq : M.eq ∈ piece
      · rw [kept_cons_of_mem heq, List.filterMap_cons_some, hrest]
        · rfl
        · rw [pieceField, if_pos (eq_mem_trim_iff.2 heq)]
      · have hblank := (h piece List.mem_cons_self).resolve_left heq
        rw [kept_cons_of_not_mem heq, List.filterMap_cons_none, ← hrest, hblank]
        · rfl
        · rw [pieceField, if_neg (mt eq_mem_trim_iff.1 heq)]

end Readings

end Fields
