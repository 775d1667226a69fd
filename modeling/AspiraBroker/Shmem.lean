/-
**Shared memory segments.**

`bt_shmem_create` makes a segment under a name that must not exist, sets its size, maps it and fills
in the header; `bt_shmem_attach` opens a segment by its name and maps it if the magic number is
there; `bt_shmem_detach` and `bt_shmem_destroy` give the descriptor and the mapping back, and the
latter also takes the name away if the handle is the creator's.  The calls of any number of
processes interleave: each system call and each store to the header is a step.  `shm_open`,
`ftruncate`, `fstat`, `mmap` and `calloc` may fail.  `munmap`, `close` and `shm_unlink` are called
for what the process holds, and the code does not look at what they return; they do not fail here.

A segment outlives its name.  It is a number here that is never used again, while a name, a
descriptor or an address may be.

Main definitions:

* `Shmem.World` — the segments and the names;
* `Shmem.Process` — what a process holds, and where its call stands;
* `Shmem.callStep`, `Shmem.step` — the machine;
* `Shmem.Goes` — everything a step of a call can do.

Main results:

* `Shmem.goes_of_callStep` — the steps of a call are those;
* `Shmem.custody_step` — **a process holds the descriptors and mappings of its handles and of its
  call, each once**.
-/

import AspiraBroker.AlignedCells
import AspiraBroker.DescriptorTable
import AspiraBroker.TransitionRuns

set_option relaxedAutoImplicit false
set_option autoImplicit false

namespace Shmem

open AlignedCells Descriptors Transition

universe u

variable {ι : Type u}

/-! ### Segments and their headers -/

/-- The bytes of a C string before its end. -/
abbrev Name := List UInt8

/-- `SHMEM_MAGIC`. -/
def shmemMagic : ℕ := 0x4254494D

/-- `SHMEM_VERSION`. -/
def shmemVersion : ℕ := 1

/-- `SHMEM_RING_SIZE`. -/
def shmemRingSize : ℕ := 65536

/-- `bt_shmem_header_t`, without the data that follow it. -/
structure Header where
  magic : ℕ
  version : ℕ
  segmentSize : ℕ
  name : Name
  orderHead : ℕ
  orderTail : ℕ
  orderMask : ℕ
  tradeHead : ℕ
  tradeTail : ℕ
  tradeMask : ℕ
  createTime : ℕ
  updateTime : ℕ
  deriving DecidableEq

/-- `sizeof(bt_shmem_header_t)`. -/
def sizeofHeader : ℕ := 4 + 4 + 8 + 64 + 3 * 8 + 3 * 8 + 8 + 8

/-- The header of zero bytes. -/
def Header.zero : Header := ⟨0, 0, 0, [], 0, 0, 0, 0, 0, 0, 0, 0⟩

/-- The stores to the header in `bt_shmem_create`, in their order; `strncpy` copies at most 63
bytes. -/
def headerStores (name : Name) (total now : ℕ) : List (Header → Header) :=
  [fun _ => .zero,
    fun h => { h with magic := shmemMagic },
    fun h => { h with version := shmemVersion },
    fun h => { h with segmentSize := total },
    fun h => { h with name := name.take 63 },
    fun h => { h with orderMask := shmemRingSize - 1 },
    fun h => { h with tradeMask := shmemRingSize - 1 },
    fun h => { h with orderHead := 0 },
    fun h => { h with orderTail := 0 },
    fun h => { h with tradeHead := 0 },
    fun h => { h with tradeTail := 0 },
    fun h => { h with createTime := now }]

/-- The size of the segment for a request: rounded up to pages, and the header. -/
def totalSize (size : ℕ) : ℕ := (alignUp 12 size + sizeofHeader) % 2 ^ 64

/-- A segment: its size and its header. -/
structure Segment where
  size : ℕ
  header : Header
  deriving DecidableEq

/-- The segments that were made, and where the names lead. -/
structure World where
  segments : ℕ → Segment
  count : ℕ
  names : Name → Option ℕ

/-- `ftruncate`. -/
def World.resize (w : World) (seg size : ℕ) : World :=
  { w with segments := Function.update w.segments seg { w.segments seg with size := size } }

/-- A store to the header of a segment. -/
def World.store (w : World) (seg : ℕ) (f : Header → Header) : World :=
  { w with
    segments := Function.update w.segments seg
      { w.segments seg with header := f (w.segments seg).header } }

/-- `shm_open` with `O_CREAT` and `O_EXCL`, under a name that leads nowhere. -/
def World.made (w : World) (name : Name) : World :=
  ⟨Function.update w.segments w.count ⟨0, .zero⟩, w.count + 1,
    Function.update w.names name (some w.count)⟩

/-- `shm_unlink`. -/
def World.unlinked (w : World) (name : Name) : World :=
  { w with names := Function.update w.names name none }

/-! ### Processes -/

/-- A call of `bt_shmem_create` that has opened its segment. -/
structure Making where
  name : Name
  size : ℕ
  seg : ℕ
  fd : ℤ
  deriving DecidableEq

/-- The size that it asks for. -/
def Making.total (m : Making) : ℕ := totalSize m.size

/-- A call of `bt_shmem_attach` that has opened a segment. -/
structure Opening where
  name : Name
  seg : ℕ
  fd : ℤ
  deriving DecidableEq

/-- `bt_shmem_t`, with the segment behind the mapping and the name that the call was made with. -/
structure Handle where
  seg : ℕ
  base : ℕ
  size : ℕ
  fd : ℤ
  owner : Bool
  name : Name
  deriving DecidableEq

/-- The mapping of a handle. -/
def Handle.mapping (h : Handle) : ℕ × ℕ := (h.base, h.size)

/-- Where a call stands. -/
inductive Pc
  | idle
  | createOpen (name : Name) (size : ℕ)
  | truncate (m : Making)
  | createMap (m : Making)
  | createAlloc (m : Making) (base : ℕ)
  | fill (m : Making) (base k : ℕ)
  | createUnmap (m : Making) (base : ℕ)
  | createClose (m : Making)
  | createUnlink (m : Making)
  | attachOpen (name : Name)
  | stat (o : Opening)
  | attachMap (o : Opening) (len : ℕ)
  | check (o : Opening) (len base : ℕ)
  | attachAlloc (o : Opening) (len base : ℕ)
  | attachUnmap (o : Opening) (len base : ℕ)
  | attachClose (o : Opening)
  | detachUnmap (h : Handle)
  | detachClose (h : Handle)
  | readName (h : Handle)
  | destroyUnmap (h : Handle) (name : Name)
  | destroyClose (h : Handle) (name : Name)
  | destroyUnlink (h : Handle) (name : Name)
  deriving DecidableEq

/-- A process: its descriptors, its mappings as addresses with lengths, its handles and its call. -/
structure Process where
  table : Table
  maps : Finset (ℕ × ℕ)
  handles : List Handle
  pc : Pc

/-- `mmap` returns an address that no other mapping of the process has. -/
def Process.mapped (P : Process) (base len : ℕ) : Option Process :=
  if 4096 ≤ base ∧ ∀ m ∈ P.maps, m.1 ≠ base then
    some { P with maps := insert (base, len) P.maps }
  else none

/-- `munmap` of a whole mapping. -/
def Process.unmapped (P : Process) (base len : ℕ) : Process :=
  { P with maps := P.maps.erase (base, len) }

/-- What the environment decides: whether the call of the operating system succeeds, and what it
returns. -/
structure Env where
  ok : Bool
  fd : ℤ
  base : ℕ
  now : ℕ

/-- One step of a call.  What gives something back does not fail. -/
def callStep (w : World) (P : Process) (env : Env) : Option (World × Process) :=
  match P.pc with
  | .idle => none
  | .createOpen name size =>
      if env.ok = true ∧ w.names name = none then
        (P.table.opened env.fd).map fun t =>
          (w.made name, { P with table := t, pc := .truncate ⟨name, size, w.count, env.fd⟩ })
      else some (w, { P with pc := .idle })
  | .truncate m =>
      -- a size that is negative as an `off_t` is refused
      if env.ok = true ∧ m.total < 2 ^ 63 then
        some (w.resize m.seg m.total, { P with pc := .createMap m })
      else some (w, { P with pc := .createClose m })
  | .createMap m =>
      if env.ok = true then
        (P.mapped env.base m.total).map fun P => (w, { P with pc := .createAlloc m env.base })
      else some (w, { P with pc := .createClose m })
  | .createAlloc m base =>
      if env.ok = true then some (w, { P with pc := .fill m base 0 })
      else some (w, { P with pc := .createUnmap m base })
  | .fill m base k =>
      match (headerStores m.name m.total env.now)[k]? with
      | some f => some (w.store m.seg f, { P with pc := .fill m base (k + 1) })
      | none =>
          some (w, { P with
            handles := ⟨m.seg, base, m.total, m.fd, true, m.name⟩ :: P.handles, pc := .idle })
  | .createUnmap m base => some (w, { P.unmapped base m.total with pc := .createClose m })
  | .createClose m => some (w, { P with table := P.table.close m.fd, pc := .createUnlink m })
  | .createUnlink m => some (w.unlinked m.name, { P with pc := .idle })
  | .attachOpen name =>
      match w.names name with
      | some seg =>
          if env.ok = true then
            (P.table.opened env.fd).map fun t =>
              (w, { P with table := t, pc := .stat ⟨name, seg, env.fd⟩ })
          else some (w, { P with pc := .idle })
      | none => some (w, { P with pc := .idle })
  | .stat o =>
      if env.ok = true then some (w, { P with pc := .attachMap o (w.segments o.seg).size })
      else some (w, { P with pc := .attachClose o })
  | .attachMap o len =>
      -- a mapping of no bytes is refused
      if env.ok = true ∧ 0 < len then
        (P.mapped env.base len).map fun P => (w, { P with pc := .check o len env.base })
      else some (w, { P with pc := .attachClose o })
  | .check o len base =>
      if (w.segments o.seg).header.magic = shmemMagic then
        some (w, { P with pc := .attachAlloc o len base })
      else some (w, { P with pc := .attachUnmap o len base })
  | .attachAlloc o len base =>
      if env.ok = true then
        some (w, { P with
          handles := ⟨o.seg, base, len, o.fd, false, o.name⟩ :: P.handles, pc := .idle })
      else some (w, { P with pc := .attachUnmap o len base })
  | .attachUnmap o len base => some (w, { P.unmapped base len with pc := .attachClose o })
  | .attachClose o => some (w, { P with table := P.table.close o.fd, pc := .idle })
  | .detachUnmap h => some (w, { P.unmapped h.base h.size with pc := .detachClose h })
  | .detachClose h => some (w, { P with table := P.table.close h.fd, pc := .idle })
  | .readName h =>
      some (w, { P with pc := .destroyUnmap h ((w.segments h.seg).header.name.take 63) })
  | .destroyUnmap h name => some (w, { P.unmapped h.base h.size with pc := .destroyClose h name })
  | .destroyClose h name =>
      some (w, { P with
        table := P.table.close h.fd, pc := if h.owner then .destroyUnlink h name else .idle })
  | .destroyUnlink _ name => some (w.unlinked name, { P with pc := .idle })

/-! ### The machine -/

/-- The segments, the names, and the processes. -/
structure Sys (ι : Type u) where
  world : World
  procs : ι → Process

/-- A process calls one of the functions, its call takes a step, or another thread of it opens or
closes a file. -/
inductive Act (ι : Type u)
  | create (p : ι) (name : Name) (size : UInt64)
  | attach (p : ι) (name : Name)
  | detach (p : ι) (h : Handle)
  | destroy (p : ι) (h : Handle)
  | go (p : ι) (env : Env)
  | openOther (p : ι) (fd : ℤ)
  | closeOther (p : ι) (fd : ℤ)

/-- The process begins a call. -/
def Process.begins (P : Process) (pc : Pc) : Option Process :=
  if P.pc = .idle then some { P with pc := pc } else none

/-- The process begins a call that uses up a handle. -/
def Process.beginsWith (P : Process) (h : Handle) (pc : Pc) : Option Process :=
  if P.pc = .idle ∧ h ∈ P.handles then some { P with handles := P.handles.erase h, pc := pc }
  else none

section Step

variable [DecidableEq ι]

/-- The process `p` changes. -/
def Sys.become (s : Sys ι) (p : ι) (w : World) (P : Process) : Sys ι :=
  ⟨w, Function.update s.procs p P⟩

/-- One step of the machine. -/
def step (s : Sys ι) : Act ι → Option (Sys ι)
  | .create p name size =>
      ((s.procs p).begins (.createOpen name size.toNat)).map (s.become p s.world)
  | .attach p name => ((s.procs p).begins (.attachOpen name)).map (s.become p s.world)
  | .detach p h => ((s.procs p).beginsWith h (.detachUnmap h)).map (s.become p s.world)
  | .destroy p h => ((s.procs p).beginsWith h (.readName h)).map (s.become p s.world)
  | .go p env => (callStep s.world (s.procs p) env).map fun r => s.become p r.1 r.2
  | .openOther p fd =>
      ((s.procs p).table.openedByOthers fd).map fun t =>
        s.become p s.world { s.procs p with table := t }
  | .closeOther p fd =>
      ((s.procs p).table.closedByOthers fd).map fun t =>
        s.become p s.world { s.procs p with table := t }

end Step

/-- No segments, and processes without handles that have files open. -/
def initial (others : ι → Finset ℤ) : Sys ι :=
  ⟨⟨fun _ => ⟨0, .zero⟩, 0, fun _ => none⟩, fun p => ⟨⟨∅, others p, 0⟩, ∅, [], .idle⟩⟩

/-! ### What a step of a call can do -/

/-- Everything a step of a call can do. -/
inductive Goes (w : World) (P : Process) (env : Env) : World → Process → Prop
  | createRefused {name : Name} {size : ℕ} (hpc : P.pc = .createOpen name size) :
      Goes w P env w { P with pc := .idle }
  | created {name : Name} {size : ℕ} {t : Table} (hpc : P.pc = .createOpen name size)
      (hfree : w.names name = none) (hopen : P.table.opened env.fd = some t) :
      Goes w P env (w.made name)
        { P with table := t, pc := .truncate ⟨name, size, w.count, env.fd⟩ }
  | sized {m : Making} (hpc : P.pc = .truncate m) :
      Goes w P env (w.resize m.seg m.total) { P with pc := .createMap m }
  | sizeFailed {m : Making} (hpc : P.pc = .truncate m) :
      Goes w P env w { P with pc := .createClose m }
  | createMapped {m : Making} {P' : Process} (hpc : P.pc = .createMap m)
      (hmap : P.mapped env.base m.total = some P') :
      Goes w P env w { P' with pc := .createAlloc m env.base }
  | createMapFailed {m : Making} (hpc : P.pc = .createMap m) :
      Goes w P env w { P with pc := .createClose m }
  | allocated {m : Making} {base : ℕ} (hpc : P.pc = .createAlloc m base) :
      Goes w P env w { P with pc := .fill m base 0 }
  | allocFailed {m : Making} {base : ℕ} (hpc : P.pc = .createAlloc m base) :
      Goes w P env w { P with pc := .createUnmap m base }
  | stored {m : Making} {base k : ℕ} {f : Header → Header} (hpc : P.pc = .fill m base k)
      (hstore : (headerStores m.name m.total env.now)[k]? = some f) :
      Goes w P env (w.store m.seg f) { P with pc := .fill m base (k + 1) }
  | finished {m : Making} {base k : ℕ} (hpc : P.pc = .fill m base k)
      (hend : (headerStores m.name m.total env.now)[k]? = none) :
      Goes w P env w
        { P with handles := ⟨m.seg, base, m.total, m.fd, true, m.name⟩ :: P.handles, pc := .idle }
  | createUnmapped {m : Making} {base : ℕ} (hpc : P.pc = .createUnmap m base) :
      Goes w P env w { P.unmapped base m.total with pc := .createClose m }
  | createClosed {m : Making} (hpc : P.pc = .createClose m) :
      Goes w P env w { P with table := P.table.close m.fd, pc := .createUnlink m }
  | createUnlinked {m : Making} (hpc : P.pc = .createUnlink m) :
      Goes w P env (w.unlinked m.name) { P with pc := .idle }
  | attachRefused {name : Name} (hpc : P.pc = .attachOpen name) :
      Goes w P env w { P with pc := .idle }
  | attachOpened {name : Name} {seg : ℕ} {t : Table} (hpc : P.pc = .attachOpen name)
      (hleads : w.names name = some seg) (hopen : P.table.opened env.fd = some t) :
      Goes w P env w { P with table := t, pc := .stat ⟨name, seg, env.fd⟩ }
  | sizeRead {o : Opening} (hpc : P.pc = .stat o) :
      Goes w P env w { P with pc := .attachMap o (w.segments o.seg).size }
  | statFailed {o : Opening} (hpc : P.pc = .stat o) :
      Goes w P env w { P with pc := .attachClose o }
  | attachMapped {o : Opening} {len : ℕ} {P' : Process} (hpc : P.pc = .attachMap o len)
      (hlen : 0 < len) (hmap : P.mapped env.base len = some P') :
      Goes w P env w { P' with pc := .check o len env.base }
  | attachMapFailed {o : Opening} {len : ℕ} (hpc : P.pc = .attachMap o len) :
      Goes w P env w { P with pc := .attachClose o }
  | magicFound {o : Opening} {len base : ℕ} (hpc : P.pc = .check o len base)
      (hmagic : (w.segments o.seg).header.magic = shmemMagic) :
      Goes w P env w { P with pc := .attachAlloc o len base }
  | magicMissing {o : Opening} {len base : ℕ} (hpc : P.pc = .check o len base) :
      Goes w P env w { P with pc := .attachUnmap o len base }
  | attached {o : Opening} {len base : ℕ} (hpc : P.pc = .attachAlloc o len base) :
      Goes w P env w
        { P with handles := ⟨o.seg, base, len, o.fd, false, o.name⟩ :: P.handles, pc := .idle }
  | attachAllocFailed {o : Opening} {len base : ℕ} (hpc : P.pc = .attachAlloc o len base) :
      Goes w P env w { P with pc := .attachUnmap o len base }
  | attachUnmapped {o : Opening} {len base : ℕ} (hpc : P.pc = .attachUnmap o len base) :
      Goes w P env w { P.unmapped base len with pc := .attachClose o }
  | attachClosed {o : Opening} (hpc : P.pc = .attachClose o) :
      Goes w P env w { P with table := P.table.close o.fd, pc := .idle }
  | detachUnmapped {h : Handle} (hpc : P.pc = .detachUnmap h) :
      Goes w P env w { P.unmapped h.base h.size with pc := .detachClose h }
  | detachClosed {h : Handle} (hpc : P.pc = .detachClose h) :
      Goes w P env w { P with table := P.table.close h.fd, pc := .idle }
  | nameRead {h : Handle} (hpc : P.pc = .readName h) :
      Goes w P env w
        { P with pc := .destroyUnmap h ((w.segments h.seg).header.name.take 63) }
  | destroyUnmapped {h : Handle} {name : Name} (hpc : P.pc = .destroyUnmap h name) :
      Goes w P env w { P.unmapped h.base h.size with pc := .destroyClose h name }
  | ownerClosed {h : Handle} {name : Name} (hpc : P.pc = .destroyClose h name)
      (howner : h.owner = true) :
      Goes w P env w { P with table := P.table.close h.fd, pc := .destroyUnlink h name }
  | guestClosed {h : Handle} {name : Name} (hpc : P.pc = .destroyClose h name)
      (howner : h.owner = false) :
      Goes w P env w { P with table := P.table.close h.fd, pc := .idle }
  | destroyUnlinked {h : Handle} {name : Name} (hpc : P.pc = .destroyUnlink h name) :
      Goes w P env (w.unlinked name) { P with pc := .idle }

section Inversion

variable {w w' : World} {P P' : Process} {env : Env}

/-- **The steps of a call are those.** -/
theorem goes_of_callStep (h : callStep w P env = some (w', P')) : Goes w P env w' P' := by
  unfold callStep at h
  cases hpc : P.pc <;> simp only [hpc] at h
  case idle => cases h
  case createOpen name size =>
    split at h
    case isTrue hcond =>
      obtain ⟨t, hopen, heq⟩ := Option.map_eq_some_iff.1 h
      cases heq
      exact .created hpc hcond.2 hopen
    case isFalse =>
      cases h
      exact .createRefused hpc
  case truncate m =>
    split at h <;> cases h
    · exact .sized hpc
    · exact .sizeFailed hpc
  case createMap m =>
    split at h
    case isTrue =>
      obtain ⟨P₁, hmap, heq⟩ := Option.map_eq_some_iff.1 h
      cases heq
      exact .createMapped hpc hmap
    case isFalse =>
      cases h
      exact .createMapFailed hpc
  case createAlloc m base =>
    split at h <;> cases h
    · exact .allocated hpc
    · exact .allocFailed hpc
  case fill m base k =>
    split at h <;> cases h
    case h_1 f hstore => exact .stored hpc hstore
    case h_2 hend => exact .finished hpc hend
  case createUnmap m base =>
    cases h
    exact .createUnmapped hpc
  case createClose m =>
    cases h
    exact .createClosed hpc
  case createUnlink m =>
    cases h
    exact .createUnlinked hpc
  case attachOpen name =>
    split at h
    case h_1 seg hleads =>
      split at h
      case isTrue =>
        obtain ⟨t, hopen, heq⟩ := Option.map_eq_some_iff.1 h
        cases heq
        exact .attachOpened hpc hleads hopen
      case isFalse =>
        cases h
        exact .attachRefused hpc
    case h_2 =>
      cases h
      exact .attachRefused hpc
  case stat o =>
    split at h <;> cases h
    · exact .sizeRead hpc
    · exact .statFailed hpc
  case attachMap o len =>
    split at h
    case isTrue hcond =>
      obtain ⟨P₁, hmap, heq⟩ := Option.map_eq_some_iff.1 h
      cases heq
      exact .attachMapped hpc hcond.2 hmap
    case isFalse =>
      cases h
      exact .attachMapFailed hpc
  case check o len base =>
    split at h <;> cases h
    case isTrue hmagic => exact .magicFound hpc hmagic
    case isFalse => exact .magicMissing hpc
  case attachAlloc o len base =>
    split at h <;> cases h
    · exact .attached hpc
    · exact .attachAllocFailed hpc
  case attachUnmap o len base =>
    cases h
    exact .attachUnmapped hpc
  case attachClose o =>
    cases h
    exact .attachClosed hpc
  case detachUnmap hd =>
    cases h
    exact .detachUnmapped hpc
  case detachClose hd =>
    cases h
    exact .detachClosed hpc
  case readName hd =>
    cases h
    exact .nameRead hpc
  case destroyUnmap hd name =>
    cases h
    exact .destroyUnmapped hpc
  case destroyClose hd name =>
    cases howner : hd.owner
    · simp only [howner, Bool.false_eq_true, if_false, Option.some.injEq, Prod.mk.injEq] at h
      obtain ⟨rfl, rfl⟩ := h
      exact .guestClosed hpc howner
    · simp only [howner, if_true, Option.some.injEq, Prod.mk.injEq] at h
      obtain ⟨rfl, rfl⟩ := h
      exact .ownerClosed hpc howner
  case destroyUnlink hd name =>
    cases h
    exact .destroyUnlinked hpc

end Inversion

/-! ### Descriptors and mappings -/

/-- The descriptor that a call has open. -/
def Pc.fds : Pc → Multiset ℤ
  | .truncate m | .createMap m | .createAlloc m _ | .fill m _ _ | .createUnmap m _
  | .createClose m => {m.fd}
  | .stat o | .attachMap o _ | .check o _ _ | .attachAlloc o _ _ | .attachUnmap o _ _
  | .attachClose o => {o.fd}
  | .detachUnmap h | .detachClose h | .readName h | .destroyUnmap h _ | .destroyClose h _ => {h.fd}
  | .idle | .createOpen .. | .createUnlink _ | .attachOpen _ | .destroyUnlink .. => 0

/-- The mapping that a call has made or not yet given back. -/
def Pc.maps : Pc → Multiset (ℕ × ℕ)
  | .createAlloc m base | .fill m base _ | .createUnmap m base => {(base, m.total)}
  | .check _ len base | .attachAlloc _ len base | .attachUnmap _ len base => {(base, len)}
  | .detachUnmap h | .readName h | .destroyUnmap h _ => {h.mapping}
  | .idle | .createOpen .. | .truncate _ | .createMap _ | .createClose _ | .createUnlink _
  | .attachOpen _ | .stat _ | .attachMap .. | .attachClose _ | .detachClose _ | .destroyClose ..
  | .destroyUnlink .. => 0

/-- The descriptors of the handles and of the call. -/
def Process.fds (P : Process) : Multiset ℤ := P.pc.fds + ↑(P.handles.map Handle.fd)

/-- The mappings of the handles and of the call. -/
def Process.mappings (P : Process) : Multiset (ℕ × ℕ) :=
  P.pc.maps + ↑(P.handles.map Handle.mapping)

/-- A process holds the descriptors and mappings of its handles and of its call, each once. -/
structure Custody (P : Process) : Prop where
  fds : Holds P.table P.fds
  maps : P.maps.val = P.mappings

section Custody

variable {w w' : World} {P P' : Process} {env : Env} {pc : Pc} {h : Handle}

/-- A step that neither opens nor closes anything. -/
theorem Custody.same (hP : Custody P) (htable : P'.table = P.table) (hmaps : P'.maps = P.maps)
    (hfds : P'.fds = P.fds) (hmappings : P'.mappings = P.mappings) : Custody P' :=
  ⟨by rw [htable, hfds]; exact hP.fds, by rw [hmaps, hmappings]; exact hP.maps⟩

/-- A file was opened. -/
theorem Custody.opened (hP : Custody P) {fd : ℤ} (hopen : P.table.opened fd = some P'.table)
    (hmaps : P'.maps = P.maps) (hfds : P'.fds = fd ::ₘ P.fds)
    (hmappings : P'.mappings = P.mappings) : Custody P' :=
  ⟨hfds ▸ hP.fds.opened hopen, by rw [hmaps, hmappings]; exact hP.maps⟩

/-- A descriptor was closed. -/
theorem Custody.closed (hP : Custody P) {fd : ℤ} (htable : P'.table = P.table.close fd)
    (hmaps : P'.maps = P.maps) (hfds : P.fds = fd ::ₘ P'.fds)
    (hmappings : P'.mappings = P.mappings) : Custody P' := by
  refine ⟨?_, by rw [hmaps, hmappings]; exact hP.maps⟩
  rw [htable]
  exact Holds.close (hfds ▸ hP.fds)

/-- A mapping was made. -/
theorem Custody.mapped (hP : Custody P) {base len : ℕ} {P₁ : Process}
    (hmap : P.mapped base len = some P₁) (hfds : pc.fds = P.pc.fds)
    (hmaps : pc.maps = (base, len) ::ₘ P.pc.maps) : Custody { P₁ with pc := pc } := by
  obtain ⟨⟨-, hnew⟩, hsome⟩ := Option.ite_none_right_eq_some.1 hmap
  obtain rfl := Option.some.inj hsome
  constructor
  · change Holds P.table (pc.fds + _)
    rw [hfds]
    exact hP.fds
  · change (insert (base, len) P.maps).val = pc.maps + _
    rw [hmaps, Multiset.cons_add, Finset.insert_val_of_notMem fun hmem => hnew _ hmem rfl, hP.maps]
    rfl

/-- A mapping was given back. -/
theorem Custody.unmapped (hP : Custody P) {base len : ℕ} (hfds : pc.fds = P.pc.fds)
    (hmaps : P.pc.maps = (base, len) ::ₘ pc.maps) :
    Custody { P.unmapped base len with pc := pc } := by
  constructor
  · change Holds P.table (pc.fds + _)
    rw [hfds]
    exact hP.fds
  · change (P.maps.erase (base, len)).val = pc.maps + _
    rw [Finset.erase_val, hP.maps, Process.mappings, hmaps, Multiset.cons_add,
      Multiset.erase_cons_head]
    rfl

/-- **A step of a call keeps the custody.** -/
theorem custody_of_goes (hP : Custody P) (hgo : Goes w P env w' P') : Custody P' := by
  cases hgo with
  | created hpc hfree hopen =>
      exact hP.opened hopen rfl (by simp [Process.fds, Pc.fds, hpc])
        (by simp [Process.mappings, Pc.maps, hpc])
  | attachOpened hpc hleads hopen =>
      exact hP.opened hopen rfl (by simp [Process.fds, Pc.fds, hpc])
        (by simp [Process.mappings, Pc.maps, hpc])
  | createMapped hpc hmap => exact hP.mapped hmap (by rw [hpc]; rfl) (by rw [hpc]; rfl)
  | attachMapped hpc hlen hmap => exact hP.mapped hmap (by rw [hpc]; rfl) (by rw [hpc]; rfl)
  | createUnmapped hpc | attachUnmapped hpc | detachUnmapped hpc | destroyUnmapped hpc =>
      exact hP.unmapped (by rw [hpc]; rfl) (by rw [hpc]; rfl)
  | createClosed hpc | attachClosed hpc | detachClosed hpc | ownerClosed hpc | guestClosed hpc =>
      exact hP.closed rfl rfl (by simp [Process.fds, Pc.fds, hpc])
        (by simp [Process.mappings, Pc.maps, hpc])
  | finished hpc | attached hpc =>
      exact hP.same rfl rfl (by simp [Process.fds, Pc.fds, hpc])
        (by simp [Process.mappings, Pc.maps, Handle.mapping, hpc])
  | createRefused hpc | sized hpc | sizeFailed hpc | createMapFailed hpc | allocated hpc
  | allocFailed hpc | stored hpc | createUnlinked hpc | attachRefused hpc | sizeRead hpc
  | statFailed hpc | attachMapFailed hpc | magicFound hpc | magicMissing hpc
  | attachAllocFailed hpc | nameRead hpc | destroyUnlinked hpc =>
      exact hP.same rfl rfl (by simp [Process.fds, Pc.fds, hpc])
        (by simp [Process.mappings, Pc.maps, hpc])

theorem fds_of_idle (hidle : P.pc = .idle) : P.fds = ↑(P.handles.map Handle.fd) := by
  rw [Process.fds, hidle]
  exact Multiset.zero_add _

theorem mappings_of_idle (hidle : P.pc = .idle) :
    P.mappings = ↑(P.handles.map Handle.mapping) := by
  rw [Process.mappings, hidle]
  exact Multiset.zero_add _

theorem custody_begins (hP : Custody P) (hbegin : P.begins pc = some P') (hfds : pc.fds = 0)
    (hmaps : pc.maps = 0) : Custody P' := by
  obtain ⟨hidle, hsome⟩ := Option.ite_none_right_eq_some.1 hbegin
  obtain rfl := Option.some.inj hsome
  refine hP.same rfl rfl ?_ ?_
  · rw [fds_of_idle hidle, Process.fds, hfds]
    exact Multiset.zero_add _
  · rw [mappings_of_idle hidle, Process.mappings, hmaps]
    exact Multiset.zero_add _

/-- A call that uses up a handle takes over what the handle holds. -/
theorem custody_beginsWith (hP : Custody P) (hbegin : P.beginsWith h pc = some P')
    (hfds : pc.fds = {h.fd}) (hmaps : pc.maps = {h.mapping}) : Custody P' := by
  obtain ⟨⟨hidle, hmem⟩, hsome⟩ := Option.ite_none_right_eq_some.1 hbegin
  obtain rfl := Option.some.inj hsome
  have hperm := (List.perm_cons_erase hmem).symm
  refine hP.same rfl rfl ?_ ?_
  · rw [fds_of_idle hidle, Process.fds, hfds]
    exact Multiset.coe_eq_coe.2 (hperm.map Handle.fd)
  · rw [mappings_of_idle hidle, Process.mappings, hmaps]
    exact Multiset.coe_eq_coe.2 (hperm.map Handle.mapping)

end Custody

/-- **Every process keeps its custody**, whatever the processes do. -/
theorem custody_step [DecidableEq ι] {s s' : Sys ι} {a : Act ι} (hs : ∀ p, Custody (s.procs p))
    (h : step s a = some s') (q : ι) : Custody (s'.procs q) := by
  have hbecome : ∀ {p w P}, Custody P → Custody ((s.become p w P).procs q) := by
    intro p w P hP
    change Custody (Function.update s.procs p P q)
    rcases eq_or_ne q p with rfl | hq
    · rwa [Function.update_self]
    · rw [Function.update_of_ne hq]
      exact hs q
  cases a with
  | create p name size | attach p name =>
      obtain ⟨P, hbegin, rfl⟩ := Option.map_eq_some_iff.1 h
      exact hbecome (custody_begins (hs p) hbegin rfl rfl)
  | detach p hd | destroy p hd =>
      obtain ⟨P, hbegin, rfl⟩ := Option.map_eq_some_iff.1 h
      exact hbecome (custody_beginsWith (hs p) hbegin rfl rfl)
  | go p env =>
      obtain ⟨⟨w, P⟩, hcall, rfl⟩ := Option.map_eq_some_iff.1 h
      exact hbecome (custody_of_goes (hs p) (goes_of_callStep hcall))
  | openOther p fd =>
      obtain ⟨t, hopen, rfl⟩ := Option.map_eq_some_iff.1 h
      exact hbecome ⟨(hs p).fds.openedByOthers hopen, (hs p).maps⟩
  | closeOther p fd =>
      obtain ⟨t, hclose, rfl⟩ := Option.map_eq_some_iff.1 h
      exact hbecome ⟨(hs p).fds.closedByOthers hclose, (hs p).maps⟩

end Shmem
