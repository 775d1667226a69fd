/-
**Descriptors of a process, and which of them a component holds.**

A descriptor is a number that names a file of the process.  The kernel gives out only numbers that
are not in use; `close` gives a number back, and the next `open` of any thread may get it.  A
component that closes a number twice therefore closes the file of somebody else.

The table keeps apart what the component has opened and what the rest of the process has, and counts
the calls of `close` that were not the component's to make.

Main definitions:

* `Descriptors.Table` — the open descriptors, by who opened them;
* `Descriptors.Table.opened`, `Descriptors.Table.close` — the two calls of the component;
* `Descriptors.Holds` — what the component holds, each descriptor once, and no call went astray.

Main results:

* `Descriptors.Holds.opened`, `Descriptors.Holds.close` — **what is held after a call**;
* `Descriptors.Holds.closeOpen` — a loop that closes what is open of a list of fields.
-/

import Mathlib.Data.Finset.Insert
import Mathlib.Data.Finset.Erase
import Mathlib.Data.Int.Basic
import Mathlib.Data.Multiset.Filter

set_option relaxedAutoImplicit false
set_option autoImplicit false

namespace Descriptors

/-- The open descriptors of a process: those that the component has opened, those that the rest of
the process has, and how often the component closed a descriptor that it did not hold. -/
structure Table where
  ours : Finset ℤ
  others : Finset ℤ
  stray : ℕ

namespace Table

/-- The descriptor is not in use. -/
def Free (t : Table) (fd : ℤ) : Prop := 0 ≤ fd ∧ fd ∉ t.ours ∧ fd ∉ t.others

instance (t : Table) (fd : ℤ) : Decidable (t.Free fd) := inferInstanceAs (Decidable (_ ∧ _))

/-- A call of the component that opens a file; the kernel returns a descriptor not in use. -/
def opened (t : Table) (fd : ℤ) : Option Table :=
  if t.Free fd then some { t with ours := insert fd t.ours } else none

/-- The component calls `close`: if it does not hold the descriptor, somebody else may. -/
def close (t : Table) (fd : ℤ) : Table :=
  if fd ∈ t.ours then { t with ours := t.ours.erase fd }
  else { t with others := t.others.erase fd, stray := t.stray + 1 }

/-- `if (fd >= 0) close(fd);` -/
def closeOpen (t : Table) (fd : ℤ) : Table := if 0 ≤ fd then t.close fd else t

/-- The rest of the process opens a file. -/
def openedByOthers (t : Table) (fd : ℤ) : Option Table :=
  if t.Free fd then some { t with others := insert fd t.others } else none

/-- The rest of the process closes one of its files. -/
def closedByOthers (t : Table) (fd : ℤ) : Option Table :=
  if fd ∈ t.others then some { t with others := t.others.erase fd } else none

end Table

/-- The component holds these descriptors, each of them once, and has closed none but its own. -/
structure Holds (t : Table) (m : Multiset ℤ) : Prop where
  ours : t.ours.val = m
  stray : t.stray = 0

section Holds

variable {t t' : Table} {m : Multiset ℤ} {fd : ℤ}

theorem Holds.opened (h : Holds t m) (hopen : t.opened fd = some t') : Holds t' (fd ::ₘ m) := by
  obtain ⟨⟨-, hnew, -⟩, hsome⟩ := Option.ite_none_right_eq_some.1 hopen
  obtain rfl := Option.some.inj hsome
  exact ⟨by rw [Finset.insert_val_of_notMem hnew, h.ours], h.stray⟩

theorem Holds.close (h : Holds t (fd ::ₘ m)) : Holds (t.close fd) m := by
  have hmem : fd ∈ t.ours := by
    rw [← Finset.mem_val, h.ours]
    exact Multiset.mem_cons_self fd m
  rw [Table.close, if_pos hmem]
  exact ⟨by rw [Finset.erase_val, h.ours, Multiset.erase_cons_head], h.stray⟩

/-- A file that is opened and closed again. -/
theorem Holds.opened_close (h : Holds t m) (hopen : t.opened fd = some t') :
    Holds (t'.close fd) m :=
  (h.opened hopen).close

theorem Holds.openedByOthers (h : Holds t m) (hopen : t.openedByOthers fd = some t') :
    Holds t' m := by
  obtain ⟨-, hsome⟩ := Option.ite_none_right_eq_some.1 hopen
  obtain rfl := Option.some.inj hsome
  exact ⟨h.ours, h.stray⟩

theorem Holds.closedByOthers (h : Holds t m) (hclose : t.closedByOthers fd = some t') :
    Holds t' m := by
  obtain ⟨-, hsome⟩ := Option.ite_none_right_eq_some.1 hclose
  obtain rfl := Option.some.inj hsome
  exact ⟨h.ours, h.stray⟩

/-- **A loop that closes what is open of a list of fields**: these descriptors are held no more. -/
theorem Holds.closeOpen {fds : List ℤ} (h : Holds t (↑(fds.filter (0 ≤ ·)) + m)) :
    Holds (fds.foldl Table.closeOpen t) m := by
  induction fds generalizing t with
  | nil => simpa using h
  | cons fd fds ih =>
      refine ih ?_
      rw [Table.closeOpen]
      split
      case isTrue hfd =>
        rw [List.filter_cons_of_pos (by simpa using hfd), ← Multiset.cons_coe,
          Multiset.cons_add] at h
        exact h.close
      case isFalse hfd => rwa [List.filter_cons_of_neg (by simpa using hfd)] at h

/-- A descriptor that is held once is not held in another place. -/
theorem Holds.nodup (h : Holds t m) : m.Nodup := h.ours ▸ t.ours.nodup

end Holds

end Descriptors
