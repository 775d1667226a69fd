/-
**Who answers for the name of a shared memory segment.**

A segment has a name from the moment `bt_shmem_create` opens it until its creator takes the name
away, in `bt_shmem_destroy` or because the creation has failed.  The name to take away is read back
from the header, where at most 63 bytes of it are.  So with names of at most 63 bytes, and creators
that destroy their segments and do not merely detach, every name leads to a segment that exactly one
process answers for, no process takes the name of another one away, and none is left behind.

A process that attaches looks at the magic number only, which is the first field of the header to be
filled in.  It may find the rest still zero, but only as long as the creator is inside of
`bt_shmem_create`.

Main definitions:

* `Shmem.book` — the names, and what each process answers for;
* `Shmem.Orderly` — names are short, and creators do not detach;
* `Shmem.Knows` — what a process has made sure of, where its call stands;
* `Shmem.Good` — the invariant.

Main results:

* `Shmem.moves_of_step` — a step makes a segment under a free name, takes the process's own name
  away, or neither;
* `Shmem.segments_in_custody` — **names, descriptors and mappings are in custody, and headers are
  complete**.
-/

import AspiraBroker.NameRegistry
import AspiraBroker.Shmem
import Mathlib.Tactic.IntervalCases

set_option relaxedAutoImplicit false
set_option autoImplicit false

namespace Shmem

open AlignedCells Descriptors Registry Transition

universe u

variable {ι : Type u}

/-! ### Sizes -/

/-- The size of a segment does not wrap around when the header is added. -/
theorem totalSize_eq (size : ℕ) : totalSize size = alignUp 12 size + sizeofHeader := by
  have hmod := Nat.mod_lt (size + (2 ^ 12 - 1)) (Nat.two_pow_pos 64)
  have halign : alignUp 12 size + 4096 ≤ 2 ^ 64 := by
    rw [alignUp_eq (by decide)]
    omega
  exact Nat.mod_eq_of_lt (by rw [sizeofHeader]; omega)

theorem totalSize_ne_zero (size : ℕ) : totalSize size ≠ 0 := by
  rw [totalSize_eq, sizeofHeader]
  omega

/-! ### Headers -/

/-- The header after the first `k` stores. -/
def headerAfter (name : Name) (total now k : ℕ) : Header :=
  ((headerStores name total now).take k).foldl (fun h f => f h) .zero

/-- The header of a segment that is complete. -/
def fullHeader (name : Name) (total now : ℕ) : Header :=
  ⟨shmemMagic, shmemVersion, total, name.take 63, 0, 0, shmemRingSize - 1, 0, 0, shmemRingSize - 1,
    now, 0⟩

section Headers

variable {name : Name} {total now now' k : ℕ} {f : Header → Header}

theorem lt_of_store (h : (headerStores name total now)[k]? = some f) : k < 12 :=
  (List.getElem?_eq_some_iff.1 h).1

/-- The next store, whatever the time was before. -/
theorem store_headerAfter (h : (headerStores name total now)[k]? = some f) :
    f (headerAfter name total now' k) = headerAfter name total now (k + 1) := by
  have hk := lt_of_store h
  interval_cases k <;> cases h <;> rfl

/-- The magic number is there after the second store. -/
theorem magic_headerAfter_iff (hk : k ≤ 12) :
    (headerAfter name total now k).magic = shmemMagic ↔ 2 ≤ k := by
  interval_cases k <;> simp [headerAfter, headerStores, Header.zero, shmemMagic]

theorem magic_zero : Header.zero.magic ≠ shmemMagic := by decide

end Headers

/-! ### Who answers for which name -/

/-- The name of a handle, with the segment. -/
def Handle.label (h : Handle) : Name × ℕ := (h.name, h.seg)

/-- The creator's handle answers for the name of its segment. -/
def Handle.charge (h : Handle) : Multiset (Name × ℕ) := if h.owner then {h.label} else 0

/-- What a call answers for. -/
def Pc.charge : Pc → Multiset (Name × ℕ)
  | .truncate m | .createMap m | .createAlloc m _ | .fill m _ _ | .createUnmap m _
  | .createClose m | .createUnlink m => {(m.name, m.seg)}
  | .readName h | .destroyUnmap h _ | .destroyClose h _ | .destroyUnlink h _ => h.charge
  | .idle | .createOpen .. | .attachOpen _ | .stat _ | .attachMap .. | .check .. | .attachAlloc ..
  | .attachUnmap .. | .attachClose _ | .detachUnmap _ | .detachClose _ => 0

/-- What a process answers for. -/
def Process.charge (P : Process) : Multiset (Name × ℕ) :=
  P.pc.charge + ↑((P.handles.filter Handle.owner).map Handle.label)

/-- The names, and what each process answers for. -/
def book (s : Sys ι) : Book ι Name ℕ := ⟨s.world.names, fun p => (s.procs p).charge⟩

/-- Names are short, and creators do not detach. -/
def Orderly (_ : Sys ι) : Act ι → Prop
  | .create _ name _ => name.length ≤ 63
  | .detach _ h => h.owner = false
  | .attach .. | .destroy .. | .go .. | .openOther .. | .closeOther .. => True

instance (s : Sys ι) : ∀ a, Decidable (Orderly s a)
  | .create _ name _ => inferInstanceAs (Decidable (name.length ≤ 63))
  | .detach _ h => inferInstanceAs (Decidable (h.owner = false))
  | .attach .. | .destroy .. | .go .. | .openOther .. | .closeOther .. => isTrue trivial

/-! ### What a process has made sure of -/

/-- What is known of the segment of a handle. -/
structure Handle.Knows (w : World) (h : Handle) : Prop where
  below : h.seg < w.count
  size : (w.segments h.seg).size = h.size
  pos : h.size ≠ 0
  magic : (w.segments h.seg).header.magic = shmemMagic
  owner : h.owner = true → h.name.length ≤ 63 ∧
    ∃ now, (w.segments h.seg).header = fullHeader h.name h.size now

/-- What a call has made sure of. -/
def Pc.Knows (w : World) : Pc → Prop
  | .createOpen name _ => name.length ≤ 63
  | .truncate m => m.name.length ≤ 63 ∧ m.seg < w.count ∧ w.segments m.seg = ⟨0, .zero⟩
  | .createMap m | .createAlloc m _ =>
      m.name.length ≤ 63 ∧ m.seg < w.count ∧ w.segments m.seg = ⟨m.total, .zero⟩
  | .fill m _ k => m.name.length ≤ 63 ∧ m.seg < w.count ∧ k ≤ 12 ∧
      ∃ now, w.segments m.seg = ⟨m.total, headerAfter m.name m.total now k⟩
  | .createUnmap m _ | .createClose m | .createUnlink m =>
      m.name.length ≤ 63 ∧ m.seg < w.count ∧ (w.segments m.seg).header = .zero
  | .stat o => o.seg < w.count
  | .attachMap o len => o.seg < w.count ∧ (len ≠ 0 → (w.segments o.seg).size = len)
  | .check o len _ => o.seg < w.count ∧ len ≠ 0 ∧ (w.segments o.seg).size = len
  | .attachAlloc o len _ => o.seg < w.count ∧ len ≠ 0 ∧ (w.segments o.seg).size = len ∧
      (w.segments o.seg).header.magic = shmemMagic
  | .readName h => h.Knows w
  | .destroyUnmap h name | .destroyClose h name =>
      h.seg < w.count ∧ (h.owner = true → name = h.name)
  | .destroyUnlink h name => h.seg < w.count ∧ h.owner = true ∧ name = h.name
  | .idle | .attachOpen _ | .attachUnmap .. | .attachClose _ | .detachUnmap _ | .detachClose _ =>
      True

/-- What a process has made sure of. -/
structure Knows (w : World) (P : Process) : Prop where
  pc : P.pc.Knows w
  handles : ∀ h ∈ P.handles, h.Knows w

/-- What may happen to a segment: its size is set once, and the magic number stays. -/
structure Grows (g g' : Segment) : Prop where
  size : g.size ≠ 0 → g'.size = g.size
  magic : g.header.magic = shmemMagic → g'.header.magic = shmemMagic

theorem Grows.refl (g : Segment) : Grows g g := ⟨fun _ => rfl, id⟩

section Knowledge

variable {w w' : World} {P P' : Process} {env : Env} {h : Handle} {pc : Pc}

theorem mem_charge_iff {x : Name × ℕ} : x ∈ h.charge ↔ h.owner = true ∧ x = h.label := by
  cases howner : h.owner <;> simp [Handle.charge, howner]

/-- A process answers for what its call does and for what its handles do. -/
theorem mem_process_charge_iff {x : Name × ℕ} :
    x ∈ P.charge ↔ x ∈ P.pc.charge ∨ ∃ h ∈ P.handles, x ∈ h.charge := by
  rw [Process.charge, Multiset.mem_add, Multiset.mem_coe, List.mem_map]
  refine or_congr Iff.rfl (exists_congr fun h => ?_)
  rw [List.mem_filter, mem_charge_iff, and_assoc, eq_comm (a := x)]

/-- What is known of a handle stays known, if its segment only grows, and does not change if it is
the creator's. -/
theorem Handle.Knows.frame (hh : h.Knows w) (hcount : w.count ≤ w'.count)
    (hgrow : ∀ i < w.count, Grows (w.segments i) (w'.segments i))
    (hsame : ∀ x ∈ h.charge, w'.segments x.2 = w.segments x.2) : h.Knows w' where
  below := hh.below.trans_le hcount
  size := ((hgrow _ hh.below).size (hh.size ▸ hh.pos)).trans hh.size
  pos := hh.pos
  magic := (hgrow _ hh.below).magic hh.magic
  owner howner := by
    have hseg : w'.segments h.seg = w.segments h.seg := hsame _ (mem_charge_iff.2 ⟨howner, rfl⟩)
    rw [hseg]
    exact hh.owner howner

theorem Pc.Knows.frame (hpc : pc.Knows w) (hcount : w.count ≤ w'.count)
    (hgrow : ∀ i < w.count, Grows (w.segments i) (w'.segments i))
    (hsame : ∀ x ∈ pc.charge, w'.segments x.2 = w.segments x.2) : pc.Knows w' := by
  cases pc with
  | idle | attachOpen | attachUnmap | attachClose | detachUnmap | detachClose => trivial
  | createOpen => exact hpc
  | truncate m | createMap m | createAlloc m base | fill m base k | createUnmap m base
  | createClose m | createUnlink m =>
      have hseg : w'.segments m.seg = w.segments m.seg := hsame _ (Multiset.mem_singleton_self _)
      obtain ⟨hshort, hbelow, hrest⟩ := hpc
      refine ⟨hshort, hbelow.trans_le hcount, ?_⟩
      rw [hseg]
      exact hrest
  | stat o => exact Nat.lt_of_lt_of_le hpc hcount
  | attachMap o len =>
      obtain ⟨hbelow, hsize⟩ := hpc
      refine ⟨hbelow.trans_le hcount, fun hlen => ?_⟩
      have hold := hsize hlen
      exact ((hgrow _ hbelow).size (hold ▸ hlen)).trans hold
  | check o len base =>
      obtain ⟨hbelow, hlen, hsize⟩ := hpc
      exact ⟨hbelow.trans_le hcount, hlen, ((hgrow _ hbelow).size (hsize ▸ hlen)).trans hsize⟩
  | attachAlloc o len base =>
      obtain ⟨hbelow, hlen, hsize, hmagic⟩ := hpc
      exact ⟨hbelow.trans_le hcount, hlen, ((hgrow _ hbelow).size (hsize ▸ hlen)).trans hsize,
        (hgrow _ hbelow).magic hmagic⟩
  | readName h => exact Handle.Knows.frame hpc hcount hgrow hsame
  | destroyUnmap h name | destroyClose h name | destroyUnlink h name =>
      exact ⟨hpc.1.trans_le hcount, hpc.2⟩

/-- What a process answers for are segments that were made. -/
theorem Knows.below (hP : Knows w P) {x : Name × ℕ} (hx : x ∈ P.charge) : x.2 < w.count := by
  have hhandle : ∀ {h : Handle}, h.seg < w.count → x ∈ h.charge → x.2 < w.count := by
    intro h hseg hx
    rw [(mem_charge_iff.1 hx).2]
    exact hseg
  rcases mem_process_charge_iff.1 hx with hx | ⟨h, hh, hx⟩
  · have hpc := hP.pc
    cases heq : P.pc with
    | idle | createOpen | attachOpen | stat | attachMap | check | attachAlloc | attachUnmap
    | attachClose | detachUnmap | detachClose =>
        rw [heq] at hx
        exact absurd hx (Multiset.notMem_zero _)
    | truncate m | createMap m | createAlloc m base | fill m base k | createUnmap m base
    | createClose m | createUnlink m =>
        rw [heq] at hx hpc
        rw [Multiset.mem_singleton.1 hx]
        exact hpc.2.1
    | readName h =>
        rw [heq] at hx hpc
        exact hhandle hpc.below hx
    | destroyUnmap h name | destroyClose h name | destroyUnlink h name =>
        rw [heq] at hx hpc
        exact hhandle hpc.1 hx
  · exact hhandle (hP.handles h hh).below hx

/-- What a step of a call does to the segments: they only grow, and those that the process does not
answer for stay the same. -/
structure Grown (w w' : World) (P : Process) : Prop where
  count : w.count ≤ w'.count
  grows : ∀ i < w.count, Grows (w.segments i) (w'.segments i)
  same : ∀ i < w.count, (∀ x ∈ P.pc.charge, x.2 ≠ i) → w'.segments i = w.segments i

theorem Grown.refl (w : World) (P : Process) : Grown w w P :=
  ⟨le_rfl, fun _ _ => Grows.refl _, fun _ _ _ => rfl⟩

/-- One segment changes, which the process answers for. -/
theorem grown_update {g : Segment} {i : ℕ} {n : Name} (hcharge : (n, i) ∈ P.pc.charge)
    (hgrow : Grows (w.segments i) g) :
    Grown w { w with segments := Function.update w.segments i g } P where
  count := le_rfl
  grows j _ := by
    change Grows _ (Function.update w.segments i g j)
    rcases eq_or_ne j i with rfl | hj
    · rwa [Function.update_self]
    · rw [Function.update_of_ne hj]
      exact Grows.refl _
  same j _ hj := Function.update_of_ne (fun heq => hj _ hcharge heq.symm) _ _

theorem grown_of_goes (hP : Knows w P) (hgo : Goes w P env w' P') : Grown w w' P := by
  have hpcKnows := hP.pc
  cases hgo with
  | @created name size t hpc hfree hopen =>
      have hsame : ∀ i < w.count, (w.made name).segments i = w.segments i := fun i hi =>
        Function.update_of_ne (Nat.ne_of_lt hi) _ _
      exact ⟨Nat.le_succ _, fun i hi => by rw [hsame i hi]; exact Grows.refl _,
        fun i hi _ => hsame i hi⟩
  | @sized m hpc =>
      rw [hpc] at hpcKnows
      refine grown_update (n := m.name) (by rw [hpc]; exact Multiset.mem_singleton_self _) ?_
      rw [hpcKnows.2.2]
      exact ⟨fun h => absurd rfl h, id⟩
  | @stored m base k f hpc hstore =>
      rw [hpc] at hpcKnows
      obtain ⟨-, -, hk, now, hseg⟩ := hpcKnows
      refine grown_update (n := m.name) (by rw [hpc]; exact Multiset.mem_singleton_self _) ?_
      rw [hseg]
      have hlt := lt_of_store hstore
      refine ⟨fun _ => rfl, fun hmagic => ?_⟩
      change (f (headerAfter m.name m.total now k)).magic = shmemMagic
      rw [store_headerAfter hstore, magic_headerAfter_iff hlt]
      exact Nat.le_succ_of_le ((magic_headerAfter_iff hk).1 hmagic)
  | createUnlinked | destroyUnlinked => exact ⟨le_rfl, fun _ _ => Grows.refl _, fun _ _ _ => rfl⟩
  | _ => exact Grown.refl w P

/-- The handles of the process answer for other segments than its call. -/
def Apart (P : Process) : Prop :=
  ∀ x ∈ P.pc.charge, ∀ h ∈ P.handles, ∀ y ∈ h.charge, x.2 ≠ y.2

theorem handles_of_grown (hP : Knows w P) (hapart : Apart P) (hgrown : Grown w w' P) :
    ∀ h ∈ P.handles, h.Knows w' := by
  intro h hh
  refine (hP.handles h hh).frame hgrown.count hgrown.grows fun y hy => ?_
  have hbelow := hP.below (mem_process_charge_iff.2 (.inr ⟨h, hh, hy⟩))
  exact hgrown.same _ hbelow fun x hx => hapart x hx h hh y hy

/-- **What a process knows after a step of its call.** -/
theorem knows_of_goes (hP : Knows w P) (hapart : Apart P)
    (hnames : ∀ n i, w.names n = some i → i < w.count) (hgo : Goes w P env w' P') :
    Knows w' P' := by
  have hold := handles_of_grown hP hapart (grown_of_goes hP hgo)
  have hknows := hP.pc
  cases hgo with
  | created hpc hfree hopen =>
      rw [hpc] at hknows
      exact ⟨⟨hknows, Nat.lt_succ_self _, Function.update_self ..⟩, hold⟩
  | sized hpc =>
      rw [hpc] at hknows
      obtain ⟨hshort, hbelow, hseg⟩ := hknows
      refine ⟨⟨hshort, hbelow, ?_⟩, hold⟩
      refine (Function.update_self ..).trans ?_
      rw [hseg]
  | sizeFailed hpc | createMapFailed hpc | allocFailed hpc =>
      rw [hpc] at hknows
      exact ⟨⟨hknows.1, hknows.2.1, congrArg Segment.header hknows.2.2⟩, hold⟩
  | createMapped hpc hmap =>
      obtain ⟨-, hsome⟩ := Option.ite_none_right_eq_some.1 hmap
      obtain rfl := Option.some.inj hsome
      rw [hpc] at hknows
      exact ⟨hknows, hold⟩
  | allocated hpc =>
      rw [hpc] at hknows
      exact ⟨⟨hknows.1, hknows.2.1, Nat.zero_le _, 0, hknows.2.2⟩, hold⟩
  | @stored m base k f hpc hstore =>
      rw [hpc] at hknows
      obtain ⟨hshort, hbelow, -, now, hseg⟩ := hknows
      refine ⟨⟨hshort, hbelow, lt_of_store hstore, env.now, ?_⟩, hold⟩
      refine (Function.update_self ..).trans ?_
      rw [hseg]
      exact congrArg _ (store_headerAfter hstore)
  | @finished m base k hpc hend =>
      rw [hpc] at hknows
      obtain ⟨hshort, hbelow, hk, now, hseg⟩ := hknows
      have hlen : 12 ≤ k := List.getElem?_eq_none_iff.1 hend
      obtain rfl : k = 12 := Nat.le_antisymm hk hlen
      refine ⟨trivial, List.forall_mem_cons.2 ⟨⟨hbelow, ?_, totalSize_ne_zero _, ?_, fun _ => ?_⟩,
        hold⟩⟩
      · exact congrArg Segment.size hseg
      · rw [hseg]
        rfl
      · exact ⟨hshort, now, congrArg Segment.header hseg⟩
  | createUnmapped hpc | createClosed hpc | destroyUnmapped hpc =>
      rw [hpc] at hknows
      exact ⟨hknows, hold⟩
  | attachOpened hpc hleads hopen => exact ⟨hnames _ _ hleads, hold⟩
  | sizeRead hpc =>
      rw [hpc] at hknows
      exact ⟨⟨hknows, fun _ => rfl⟩, hold⟩
  | attachMapped hpc hlen hmap =>
      obtain ⟨-, hsome⟩ := Option.ite_none_right_eq_some.1 hmap
      obtain rfl := Option.some.inj hsome
      rw [hpc] at hknows
      exact ⟨⟨hknows.1, hlen.ne', hknows.2 hlen.ne'⟩, hold⟩
  | magicFound hpc hmagic =>
      rw [hpc] at hknows
      exact ⟨⟨hknows.1, hknows.2.1, hknows.2.2, hmagic⟩, hold⟩
  | attached hpc =>
      rw [hpc] at hknows
      obtain ⟨hbelow, hlen, hsize, hmagic⟩ := hknows
      exact ⟨trivial, List.forall_mem_cons.2 ⟨⟨hbelow, hsize, hlen, hmagic, by simp⟩, hold⟩⟩
  | @nameRead h hpc =>
      rw [hpc] at hknows
      refine ⟨⟨hknows.below, fun howner => ?_⟩, hold⟩
      obtain ⟨hshort, now, hheader⟩ := hknows.owner howner
      rw [hheader]
      change (h.name.take 63).take 63 = h.name
      rw [List.take_take, List.take_of_length_le (by omega)]
  | ownerClosed hpc howner =>
      rw [hpc] at hknows
      exact ⟨⟨hknows.1, howner, hknows.2 howner⟩, hold⟩
  | createRefused | createUnlinked | attachRefused | statFailed | attachMapFailed | magicMissing
  | attachAllocFailed | attachUnmapped | attachClosed | detachUnmapped | detachClosed | guestClosed
  | destroyUnlinked => exact ⟨trivial, hold⟩

end Knowledge

/-! ### The invariant -/

/-- Where a segment with the magic number stands: it is complete, or its creator is still filling
the header in. -/
def Settled (s : Sys ι) (i : ℕ) : Prop :=
  (∃ name now, (s.world.segments i).header = fullHeader name (s.world.segments i).size now) ∨
    ∃ p m base k, (s.procs p).pc = .fill m base k ∧ m.seg = i

/-- **The invariant.** -/
structure Good (s : Sys ι) : Prop where
  custody : ∀ p, Custody (s.procs p)
  tidy : Tidy (book s)
  knows : ∀ p, Knows s.world (s.procs p)
  settled : ∀ i, (s.world.segments i).header.magic = shmemMagic → Settled s i

section Invariant

variable {s s' : Sys ι} {p q : ι}

theorem Good.names_below (hs : Good s) {n : Name} {i : ℕ} (h : s.world.names n = some i) :
    i < s.world.count := by
  obtain ⟨p, hp⟩ := hs.tidy.charged n i h
  exact (hs.knows p).below hp

/-- Two processes answer for different segments. -/
theorem Good.ne_of_charge (hs : Good s) (hpq : p ≠ q) {x y : Name × ℕ}
    (hx : x ∈ (s.procs p).charge) (hy : y ∈ (s.procs q).charge) : x.2 ≠ y.2 :=
  fun heq => hpq (hs.tidy.alone p q x y hx hy heq).1

theorem Good.apart (hs : Good s) (p : ι) : Apart (s.procs p) := by
  intro x hx h hh y hy heq
  have hx' : x ∈ (s.procs p).charge := mem_process_charge_iff.2 (.inl hx)
  have hy' : y ∈ (s.procs p).charge := mem_process_charge_iff.2 (.inr ⟨h, hh, hy⟩)
  obtain ⟨-, rfl⟩ := hs.tidy.alone p p x y hx' hy' heq
  have hnodup : (Process.charge (s.procs p)).Nodup := hs.tidy.once p
  obtain ⟨howner, rfl⟩ := mem_charge_iff.1 hy
  refine Multiset.disjoint_left.1 (Multiset.nodup_add.1 hnodup).2.2 hx ?_
  exact List.mem_map_of_mem (List.mem_filter.2 ⟨hh, howner⟩)

/-- What another process knows stays known. -/
theorem Good.knows_other (hs : Good s) {w' : World} (hgrown : Grown s.world w' (s.procs p))
    (hqp : q ≠ p) : Knows w' (s.procs q) := by
  have hsame : ∀ y ∈ (s.procs q).charge, w'.segments y.2 = s.world.segments y.2 := by
    intro y hy
    refine hgrown.same _ ((hs.knows q).below hy) fun x hx => ?_
    exact hs.ne_of_charge hqp.symm (mem_process_charge_iff.2 (.inl hx)) hy
  constructor
  · exact (hs.knows q).pc.frame hgrown.count hgrown.grows fun y hy =>
      hsame y (mem_process_charge_iff.2 (.inl hy))
  · intro h hh
    exact ((hs.knows q).handles h hh).frame hgrown.count hgrown.grows fun y hy =>
      hsame y (mem_process_charge_iff.2 (.inr ⟨h, hh, hy⟩))

variable [DecidableEq ι]

/-- The book after a step that changes one process. -/
theorem book_become (s : Sys ι) (p : ι) (w : World) (P : Process) :
    book (s.become p w P) =
      ⟨w.names, Function.update (fun q => (s.procs q).charge) p P.charge⟩ := by
  refine congrArg (Book.mk w.names) (funext fun q => ?_)
  change (Function.update s.procs p P q).charge = _
  rcases eq_or_ne q p with rfl | hq
  · rw [Function.update_self, Function.update_self]
  · rw [Function.update_of_ne hq, Function.update_of_ne hq]

/-- A step that changes no name and nothing that the process answers for. -/
theorem moves_keep {w : World} {P : Process} (hnames : w.names = s.world.names)
    (hcharge : P.charge = (s.procs p).charge) : Moves (book s) (book (s.become p w P)) := by
  have heq : book (s.become p w P) = book s := by
    rw [book_become, hnames, hcharge, Function.update_eq_self]
    rfl
  rw [heq]
  exact .keep

/-- **What a step of a call does to the names.** -/
theorem moves_of_goes (hs : Good s) {env : Env} {w : World} {P : Process}
    (hgo : Goes s.world (s.procs p) env w P) : Moves (book s) (book (s.become p w P)) := by
  have hknows := (hs.knows p).pc
  cases hgo with
  | @created name size t hpc hfree hopen =>
      have hcharge : Process.charge { s.procs p with
          table := t, pc := .truncate ⟨name, size, s.world.count, env.fd⟩ } =
          (name, s.world.count) ::ₘ (s.procs p).charge := by
        simp [Process.charge, Pc.charge, hpc]
      rw [book_become, hcharge]
      exact .claim p hfree fun q x hx => Nat.ne_of_lt ((hs.knows q).below hx)
  | @createUnlinked m hpc =>
      have hcharge : (s.procs p).charge =
          (m.name, m.seg) ::ₘ Process.charge { s.procs p with pc := .idle } := by
        simp [Process.charge, Pc.charge, hpc]
      rw [book_become]
      exact .give p hcharge
  | @destroyUnlinked h name hpc =>
      rw [hpc] at hknows
      obtain ⟨-, howner, rfl⟩ := hknows
      have hcharge : (s.procs p).charge =
          (h.name, h.seg) ::ₘ Process.charge { s.procs p with pc := .idle } := by
        simp [Process.charge, Pc.charge, Handle.charge, Handle.label, hpc, howner]
      rw [book_become]
      exact .give p hcharge
  | createMapped hpc hmap | attachMapped hpc _ hmap =>
      obtain ⟨-, hsome⟩ := Option.ite_none_right_eq_some.1 hmap
      obtain rfl := Option.some.inj hsome
      exact moves_keep rfl (by simp [Process.charge, Pc.charge, hpc])
  | finished hpc | attached hpc =>
      exact moves_keep rfl (by simp [Process.charge, Pc.charge, Handle.label, hpc])
  | guestClosed hpc howner =>
      exact moves_keep rfl (by simp [Process.charge, Pc.charge, Handle.charge, hpc, howner])
  | createRefused hpc | sized hpc | sizeFailed hpc | createMapFailed hpc | allocated hpc
  | allocFailed hpc | stored hpc | createUnmapped hpc | createClosed hpc | attachRefused hpc
  | attachOpened hpc | sizeRead hpc | statFailed hpc | attachMapFailed hpc | magicFound hpc
  | magicMissing hpc | attachAllocFailed hpc | attachUnmapped hpc | attachClosed hpc
  | detachUnmapped hpc | detachClosed hpc | nameRead hpc | destroyUnmapped hpc | ownerClosed hpc =>
      exact moves_keep rfl (by simp [Process.charge, Process.unmapped, Pc.charge, hpc])

theorem charge_begins {P P' : Process} {pc : Pc} (hbegin : P.begins pc = some P')
    (hpc : pc.charge = 0) : P'.charge = P.charge := by
  obtain ⟨hidle, hsome⟩ := Option.ite_none_right_eq_some.1 hbegin
  obtain rfl := Option.some.inj hsome
  rw [Process.charge, Process.charge, hpc, hidle]
  rfl

/-- A call that uses up a handle answers for what the handle did. -/
theorem charge_beginsWith {P P' : Process} {h : Handle} {pc : Pc}
    (hbegin : P.beginsWith h pc = some P') (hpc : pc.charge = h.charge) :
    P'.charge = P.charge := by
  obtain ⟨⟨hidle, hmem⟩, hsome⟩ := Option.ite_none_right_eq_some.1 hbegin
  obtain rfl := Option.some.inj hsome
  have hperm := ((List.perm_cons_erase hmem).filter Handle.owner).map Handle.label
  have hold : P.charge = ↑((P.handles.filter Handle.owner).map Handle.label) := by
    rw [Process.charge, hidle]
    exact Multiset.zero_add _
  rw [hold, Process.charge, hpc, Multiset.coe_eq_coe.2 hperm, Handle.charge]
  cases howner : h.owner <;> simp [howner]

/-- **What a step does to the names**: it makes a segment under a free name, takes a name away that
the process answers for, or neither. -/
theorem moves_of_step {a : Act ι} (hs : Good s) (horderly : Orderly s a) (h : step s a = some s') :
    Moves (book s) (book s') := by
  cases a with
  | create p name size | attach p name =>
      obtain ⟨P, hbegin, rfl⟩ := Option.map_eq_some_iff.1 h
      exact moves_keep rfl (charge_begins hbegin rfl)
  | detach p hd =>
      obtain ⟨P, hbegin, rfl⟩ := Option.map_eq_some_iff.1 h
      refine moves_keep rfl (charge_beginsWith hbegin ?_)
      rw [Handle.charge, show hd.owner = false from horderly]
      rfl
  | destroy p hd =>
      obtain ⟨P, hbegin, rfl⟩ := Option.map_eq_some_iff.1 h
      exact moves_keep rfl (charge_beginsWith hbegin rfl)
  | go p env =>
      obtain ⟨⟨w, P⟩, hcall, rfl⟩ := Option.map_eq_some_iff.1 h
      exact moves_of_goes hs (goes_of_callStep hcall)
  | openOther p fd =>
      obtain ⟨t, hopen, rfl⟩ := Option.map_eq_some_iff.1 h
      exact moves_keep rfl rfl
  | closeOther p fd =>
      obtain ⟨t, hclose, rfl⟩ := Option.map_eq_some_iff.1 h
      exact moves_keep rfl rfl

/-- **What the processes know after a step.** -/
theorem knows_step {a : Act ι} (hs : Good s) (horderly : Orderly s a) (h : step s a = some s')
    (q : ι) : Knows s'.world (s'.procs q) := by
  have hbecome : ∀ {p w P}, Grown s.world w (s.procs p) → Knows w P →
      Knows w ((s.become p w P).procs q) := by
    intro p w P hgrown hP
    change Knows w (Function.update s.procs p P q)
    rcases eq_or_ne q p with rfl | hq
    · rwa [Function.update_self]
    · rw [Function.update_of_ne hq]
      exact hs.knows_other hgrown hq
  have hstill := Grown.refl s.world
  cases a with
  | create p name size =>
      obtain ⟨P, hbegin, rfl⟩ := Option.map_eq_some_iff.1 h
      obtain ⟨-, hsome⟩ := Option.ite_none_right_eq_some.1 hbegin
      obtain rfl := Option.some.inj hsome
      exact hbecome (hstill _) ⟨horderly, (hs.knows p).handles⟩
  | attach p name =>
      obtain ⟨P, hbegin, rfl⟩ := Option.map_eq_some_iff.1 h
      obtain ⟨-, hsome⟩ := Option.ite_none_right_eq_some.1 hbegin
      obtain rfl := Option.some.inj hsome
      exact hbecome (hstill _) ⟨trivial, (hs.knows p).handles⟩
  | detach p hd =>
      obtain ⟨P, hbegin, rfl⟩ := Option.map_eq_some_iff.1 h
      obtain ⟨⟨-, hmem⟩, hsome⟩ := Option.ite_none_right_eq_some.1 hbegin
      obtain rfl := Option.some.inj hsome
      exact hbecome (hstill _)
        ⟨trivial, fun h hh => (hs.knows p).handles h (List.mem_of_mem_erase hh)⟩
  | destroy p hd =>
      obtain ⟨P, hbegin, rfl⟩ := Option.map_eq_some_iff.1 h
      obtain ⟨⟨-, hmem⟩, hsome⟩ := Option.ite_none_right_eq_some.1 hbegin
      obtain rfl := Option.some.inj hsome
      exact hbecome (hstill _) ⟨(hs.knows p).handles hd hmem,
        fun h hh => (hs.knows p).handles h (List.mem_of_mem_erase hh)⟩
  | go p env =>
      obtain ⟨⟨w, P⟩, hcall, rfl⟩ := Option.map_eq_some_iff.1 h
      have hgo := goes_of_callStep hcall
      exact hbecome (grown_of_goes (hs.knows p) hgo)
        (knows_of_goes (hs.knows p) (hs.apart p) (fun _ _ => hs.names_below) hgo)
  | openOther p fd =>
      obtain ⟨t, hopen, rfl⟩ := Option.map_eq_some_iff.1 h
      exact hbecome (hstill _) ⟨(hs.knows p).pc, (hs.knows p).handles⟩
  | closeOther p fd =>
      obtain ⟨t, hclose, rfl⟩ := Option.map_eq_some_iff.1 h
      exact hbecome (hstill _) ⟨(hs.knows p).pc, (hs.knows p).handles⟩

/-- A segment that does not change stays settled, unless its creator leaves it incomplete. -/
theorem Settled.become {w : World} {P : Process} {i : ℕ} (hset : Settled s i)
    (hseg : w.segments i = s.world.segments i)
    (hfill : ∀ m base k, (s.procs p).pc = .fill m base k → m.seg = i →
      (∃ name now, (w.segments i).header = fullHeader name (w.segments i).size now) ∨
        ∃ base k, P.pc = .fill m base k) : Settled (s.become p w P) i := by
  rcases hset with hfull | ⟨q, m, base, k, hpc, rfl⟩
  · refine .inl ?_
    change ∃ name now, (w.segments i).header = fullHeader name (w.segments i).size now
    rw [hseg]
    exact hfull
  · rcases eq_or_ne q p with rfl | hq
    · rcases hfill m base k hpc rfl with hfull | ⟨base, k, hpc'⟩
      · exact .inl hfull
      · refine .inr ⟨q, m, base, k, ?_, rfl⟩
        change (Function.update s.procs q P q).pc = _
        rw [Function.update_self]
        exact hpc'
    · refine .inr ⟨q, m, base, k, ?_, rfl⟩
      change (Function.update s.procs p P q).pc = _
      rw [Function.update_of_ne hq]
      exact hpc

theorem settled_of_goes (hs : Good s) {env : Env} {w : World} {P : Process}
    (hgo : Goes s.world (s.procs p) env w P) {i : ℕ}
    (hmagic : (w.segments i).header.magic = shmemMagic) : Settled (s.become p w P) i := by
  have hknows := (hs.knows p).pc
  cases hgo with
  | @created name size t hpc hfree hopen =>
      rcases eq_or_ne i s.world.count with rfl | hi
      · have hnew : (s.world.made name).segments s.world.count = ⟨0, .zero⟩ :=
          Function.update_self ..
        rw [hnew] at hmagic
        exact absurd hmagic magic_zero
      · have hseg : (s.world.made name).segments i = s.world.segments i :=
          Function.update_of_ne hi _ _
        rw [hseg] at hmagic
        exact (hs.settled i hmagic).become hseg fun m base k hfill => by simp [hpc] at hfill
  | @sized m hpc =>
      rw [hpc] at hknows
      rcases eq_or_ne i m.seg with rfl | hi
      · have hnew : (s.world.resize m.seg m.total).segments m.seg =
            { s.world.segments m.seg with size := m.total } := Function.update_self ..
        rw [hnew, hknows.2.2] at hmagic
        exact absurd hmagic magic_zero
      · have hseg : (s.world.resize m.seg m.total).segments i = s.world.segments i :=
          Function.update_of_ne hi _ _
        rw [hseg] at hmagic
        exact (hs.settled i hmagic).become hseg fun m base k hfill => by simp [hpc] at hfill
  | @stored m base k f hpc hstore =>
      have hnext : Function.update s.procs p { s.procs p with pc := .fill m base (k + 1) } p =
          { s.procs p with pc := .fill m base (k + 1) } := Function.update_self ..
      rcases eq_or_ne i m.seg with rfl | hi
      · exact .inr ⟨p, m, base, k + 1, congrArg Process.pc hnext, rfl⟩
      · have hseg : (s.world.store m.seg f).segments i = s.world.segments i :=
          Function.update_of_ne hi _ _
        rw [hseg] at hmagic
        refine (hs.settled i hmagic).become hseg fun m' base' k' hfill _ => .inr ?_
        cases hpc.symm.trans hfill
        exact ⟨_, _, rfl⟩
  | @finished m base k hpc hend =>
      rw [hpc] at hknows
      obtain ⟨-, -, hk, now, hseg⟩ := hknows
      have hlen : 12 ≤ k := List.getElem?_eq_none_iff.1 hend
      obtain rfl : k = 12 := Nat.le_antisymm hk hlen
      refine (hs.settled i hmagic).become rfl fun m' base' k' hfill hi => .inl ?_
      cases hpc.symm.trans hfill
      subst hi
      rw [hseg]
      exact ⟨m.name, now, rfl⟩
  | createUnlinked hpc | destroyUnlinked hpc =>
      exact (hs.settled i hmagic).become rfl fun m base k hfill => by simp [hpc] at hfill
  | createRefused hpc | sizeFailed hpc | createMapped hpc | createMapFailed hpc | allocated hpc
  | allocFailed hpc | createUnmapped hpc | createClosed hpc | attachRefused hpc | attachOpened hpc
  | sizeRead hpc | statFailed hpc | attachMapped hpc | attachMapFailed hpc | magicFound hpc
  | magicMissing hpc | attached hpc | attachAllocFailed hpc | attachUnmapped hpc | attachClosed hpc
  | detachUnmapped hpc | detachClosed hpc | nameRead hpc | destroyUnmapped hpc | ownerClosed hpc
  | guestClosed hpc =>
      exact (hs.settled i hmagic).become rfl fun m base k hfill => by simp [hpc] at hfill

theorem settled_step {a : Act ι} (hs : Good s) (h : step s a = some s') {i : ℕ}
    (hmagic : (s'.world.segments i).header.magic = shmemMagic) : Settled s' i := by
  cases a with
  | create p name size | attach p name =>
      obtain ⟨P, hbegin, rfl⟩ := Option.map_eq_some_iff.1 h
      obtain ⟨hidle, -⟩ := Option.ite_none_right_eq_some.1 hbegin
      exact (hs.settled i hmagic).become rfl fun m base k hfill => by simp [hidle] at hfill
  | detach p hd | destroy p hd =>
      obtain ⟨P, hbegin, rfl⟩ := Option.map_eq_some_iff.1 h
      obtain ⟨⟨hidle, -⟩, -⟩ := Option.ite_none_right_eq_some.1 hbegin
      exact (hs.settled i hmagic).become rfl fun m base k hfill => by simp [hidle] at hfill
  | go p env =>
      obtain ⟨⟨w, P⟩, hcall, rfl⟩ := Option.map_eq_some_iff.1 h
      exact settled_of_goes hs (goes_of_callStep hcall) hmagic
  | openOther p fd | closeOther p fd =>
      obtain ⟨t, -, rfl⟩ := Option.map_eq_some_iff.1 h
      exact (hs.settled i hmagic).become rfl fun m base k hfill _ => .inr ⟨base, k, hfill⟩

/-- **A step keeps the invariant.** -/
theorem good_step {a : Act ι} (hs : Good s) (horderly : Orderly s a) (h : step s a = some s') :
    Good s' where
  custody := custody_step hs.custody h
  tidy := hs.tidy.moves (moves_of_step hs horderly h)
  knows := knows_step hs horderly h
  settled _ hmagic := settled_step hs h hmagic

end Invariant

theorem good_initial (others : ι → Finset ℤ) : Good (initial others) where
  custody _ := ⟨⟨rfl, rfl⟩, rfl⟩
  tidy := ⟨by simp [book, initial, Process.charge, Pc.charge], by simp [book, initial],
    by simp [book, initial, Process.charge, Pc.charge],
    by simp [book, initial, Process.charge, Pc.charge]⟩
  knows _ := ⟨trivial, List.forall_mem_nil _⟩
  settled _ hmagic := absurd hmagic magic_zero

/-! ### Whole runs -/

/-- What holds at every moment: each process holds the descriptors and mappings of its handles and
of its call, each once, and has closed no other; a name leads to a segment exactly if a process
answers for it, and no two do for one segment; a handle is for a segment of its size with the magic
number, which is complete unless its creator is still inside of `bt_shmem_create`. -/
structure InCustody (s : Sys ι) : Prop where
  fds : ∀ p, Holds (s.procs p).table (s.procs p).fds
  maps : ∀ p, (s.procs p).maps.val = (s.procs p).mappings
  names : ∀ n i, s.world.names n = some i ↔ ∃ p, (n, i) ∈ (s.procs p).charge
  alone : ∀ p q x y, x ∈ (s.procs p).charge → y ∈ (s.procs q).charge → x.2 = y.2 → p = q ∧ x = y
  handles : ∀ p, ∀ h ∈ (s.procs p).handles, (s.world.segments h.seg).size = h.size ∧
    (s.world.segments h.seg).header.magic = shmemMagic ∧ Settled s h.seg
  left : (∀ p, (s.procs p).pc = .idle ∧ (s.procs p).handles = []) →
    (∀ n, s.world.names n = none) ∧ ∀ p, (s.procs p).table.ours = ∅ ∧ (s.procs p).maps = ∅

theorem Good.inCustody {s : Sys ι} (hs : Good s) : InCustody s where
  fds p := (hs.custody p).fds
  maps p := (hs.custody p).maps
  names n i := ⟨hs.tidy.charged n i, fun ⟨p, hp⟩ => hs.tidy.leads p _ hp⟩
  alone := hs.tidy.alone
  handles p h hh := by
    have hknows := (hs.knows p).handles h hh
    exact ⟨hknows.size, hknows.magic, hs.settled _ hknows.magic⟩
  left hidle := by
    constructor
    · refine hs.tidy.unbound fun p => ?_
      simp [book, Process.charge, hidle p, Pc.charge]
    · intro p
      obtain ⟨hpc, hnone⟩ := hidle p
      have hfds := (hs.custody p).fds.ours
      have hmaps := (hs.custody p).maps
      rw [fds_of_idle hpc, hnone] at hfds
      rw [mappings_of_idle hpc, hnone] at hmaps
      exact ⟨Finset.val_eq_zero.1 hfds, Finset.val_eq_zero.1 hmaps⟩

/-- **Names, descriptors and mappings are in custody, and headers are complete**, at every moment of
every run of any number of processes that make, attach, detach and destroy segments, whichever
calls of `shm_open`, `ftruncate`, `fstat`, `mmap` and `calloc` fail.  `munmap`, `close` and
`shm_unlink` are taken to succeed.  Names are to be of at most 63 bytes, and creators are to destroy
their segments and not only to detach. -/
theorem segments_in_custody [DecidableEq ι] (others : ι → Finset ℤ) (acts : List (Act ι))
    (horderly : Along step Orderly (initial others) acts) :
    Throughout step InCustody (initial others) acts :=
  throughout_of_invariant (G := Orderly) (I := Good) (fun _ _ _ hs hg h => good_step hs hg h)
    (fun _ hs => hs.inCustody) (good_initial others) horderly

/-- `n` steps of a call in which nothing fails. -/
def steps (p : Bool) (n : ℕ) : List (Act Bool) := List.replicate n (.go p ⟨true, 3, 4096, 7⟩)

/-- A process makes a segment, another one attaches to it, and both let it go. -/
def madeAndAttached (name : Name) : List (Act Bool) :=
  .create false name 100 :: steps false 17 ++ .attach true name :: steps true 5 ++
    .destroy false ⟨0, 4096, 4240, 3, true, name⟩ :: steps false 4 ++
    .detach true ⟨0, 4096, 4240, 3, false, name⟩ :: steps true 2

/-- The hypothesis of `Shmem.segments_in_custody` holds of the run `Shmem.madeAndAttached`, after
which the name leads nowhere. -/
theorem segments_in_custody_attached :
    (run step (initial fun _ => {0, 1, 2}) (madeAndAttached [47, 97])).map
        (fun s => (s.world.names [47, 97], (s.procs false).table.ours, (s.procs true).maps)) =
        some (none, ∅, ∅) ∧
      Throughout step InCustody (initial fun _ => {0, 1, 2}) (madeAndAttached [47, 97]) :=
  ⟨by decide +kernel, segments_in_custody _ _ (by decide +kernel)⟩

/-- A process attaches while the creator is filling the header in, and finds a ring of one slot. -/
example :
    (run step (initial fun _ => ∅) (.create false [47, 97] 100 :: steps false 6 ++
        .attach true [47, 97] :: steps true 5)).map
      (fun s => ((s.procs true).handles.length, (s.world.segments 0).header.orderMask)) =
      some (1, 0) := by
  decide +kernel

/-- A creator with a name of 64 bytes takes away the name of another segment. -/
example :
    (run step (initial fun _ => ∅)
      (.create false (List.replicate 64 97) 100 :: steps false 17 ++
        .create true (List.replicate 63 97) 100 :: steps true 17 ++
        .destroy false ⟨0, 4096, 4240, 3, true, List.replicate 64 97⟩ :: steps false 4)).map
      (fun s => (s.world.names (List.replicate 63 97), s.world.names (List.replicate 64 97),
        (s.procs true).handles.length)) = some (none, some 0, 1) := by
  decide +kernel

end Shmem
