import Limine.Pmm.Sanitise

/-!
# The allocators over the memory map

`pmm_new_entry` carves a range out of every entry and appends it; `memmap_alloc_range` checks
the range first and sanitises afterwards; `ext_mem_alloc_type_aligned_mode`, `conv_mem_alloc`
and `pmm_free` are built on it.  The contents of memory (the `memset` of an allocation) are
not part of the model.
-/

namespace Limine.Pmm

open Limine.Lib

/-- The build's and the platform's constants. -/
structure Config where
  /-- `memmap_max_entries` -/
  maxEntries : Nat
  /-- `pmm_sanitiser_keep_first_page` -/
  keepFirstPage : Bool
  /-- x86-64 and i386 try below 4 GiB first -/
  isX86 : Bool
deriving Repr

/-- The body of `pmm_new_entry`'s loop for `e = m[i]`: what stays of `m[i]` and the entry appended
for the part past `top`; `none` removes `m[i]`. -/
def cutEntry (base top : Nat) (e : MemmapEntry) : Option (MemmapEntry × Option MemmapEntry) :=
  match checkedAdd e.base e.length with
  | none => some (e, none)
  | some entryTop =>
    -- full overlap
    if base ≤ e.base ∧ entryTop ≤ top then none
    -- partial overlap (bottom)
    else if base ≤ e.base ∧ top < entryTop ∧ e.base < top then
      some ({ e with base := e.base + (top - e.base), length := e.length - (top - e.base) }, none)
    -- partial overlap (top)
    else if e.base < base ∧ base < entryTop ∧ entryTop ≤ top then
      some ({ e with length := e.length - (entryTop - base) }, none)
    -- nested
    else if e.base < base ∧ top < entryTop then
      some ({ e with length := e.length - (entryTop - base) },
        some { e with base := top, length := entryTop - top })
    else some (e, none)

def newEntryLoop (maxEntries base top : Nat) : Nat → Memmap → Nat → Exec Memmap
  | 0, _, _ => .error .outOfFuel
  | fuel + 1, m, i =>
    match m[i]? with
    | none => .ok m
    | some e =>
      match cutEntry base top e with
      | none => newEntryLoop maxEntries base top fuel (swapRemove m i) i
      | some (e', none) => newEntryLoop maxEntries base top fuel (m.set i e') (i + 1)
      | some (e', some x) =>
        if m.length ≥ maxEntries then .error (.panic "Memory map exhausted.")
        else newEntryLoop maxEntries base top fuel ((m ++ [x]).set i e') (i + 1)

/-- `pmm_new_entry`, which returns true whenever it returns. -/
def pmmNewEntry (maxEntries : Nat) (m : Memmap) (base length type : Nat) : Exec Memmap :=
  match checkedAdd base length with
  | none => .error (.panic "pmm: Integer overflow in memory range calculation")
  | some top => do
    let m ← newEntryLoop maxEntries base top (3 * m.length + 1) m 0
    if m.length ≥ maxEntries then .error (.panic "Memory map exhausted.")
    else .ok (m ++ [⟨base, length, type⟩])

/-- Entry `e` is one `memmap_alloc_range_in` may take `[base, top)` from. -/
def holdsRange (overlayType base top : Nat) (e : MemmapEntry) : Bool :=
  if overlayType ≠ 0 ∧ e.type ≠ overlayType then false
  else
    match checkedAdd e.base e.length with
    | none => false
    | some entryTop => decide (e.base ≤ base ∧ base < entryTop ∧ top ≤ entryTop)

def memmapAllocRangeIn (cfg : Config) (m : Memmap) (base length type overlayType : Nat)
    (doPanic simulation newEntry : Bool) : Exec (Memmap × Bool) :=
  let success : Exec (Memmap × Bool) := do
    let m ← pmmNewEntry cfg.maxEntries m base length type
    let m ← pmmSanitiseEntries cfg.maxEntries cfg.keepFirstPage m false
    return (m, true)
  if length = 0 then .ok (m, true)
  else if simulation && newEntry then .ok (m, true)
  else
    match checkedAdd base length with
    | none => if doPanic then .error (.panic "Memory allocation overflow.") else .ok (m, false)
    | some top =>
      if m.any (holdsRange overlayType base top) then
        if simulation then .ok (m, true) else success
      else if !newEntry && doPanic then .error (.panic "Memory allocation failure.")
      else if !newEntry then .ok (m, false)
      else success

/-- Entry `e` covers `addr`. -/
def holdsAddr (addr : Nat) (e : MemmapEntry) : Bool :=
  match checkedAdd e.base e.length with
  | none => false
  | some entryTop => decide (e.base ≤ addr ∧ addr < entryTop)

/-- The type of the first entry that covers `addr`. -/
def pmmCheckType (m : Memmap) (addr : Nat) : Nat :=
  match m.find? (holdsAddr addr) with
  | some e => e.type
  | none => 2 ^ 64 - 1

/-- The variables of `pmm.s2.c` the allocators read and write. -/
structure PmmState where
  memmap : Memmap
  /-- `base` of `conv_mem_alloc`, `4096` at first -/
  convBase : Nat
  allocationsDisallowed : Bool
deriving DecidableEq, Repr

def memmapAllocRange (cfg : Config) (s : PmmState) (base length type overlayType : Nat)
    (doPanic simulation newEntry : Bool) : Exec (PmmState × Bool) := do
  let (m, ok) ← memmapAllocRangeIn cfg s.memmap base length type overlayType doPanic simulation newEntry
  return ({ s with memmap := m }, ok)

def pmmFree (cfg : Config) (s : PmmState) (ptr count : Nat) : Exec PmmState :=
  if ptr = 0 then .ok s
  else if ptr % 4096 ≠ 0 then .error (.panic "pmm_free: Unaligned pointer %p")
  else
    match alignUp (if count = 0 then 1 else count) 4096 with
    | none => .error (.panic "Alignment overflow")
    | some count =>
      if s.allocationsDisallowed then .error (.panic "Memory allocations disallowed")
      else do
        let (s, _) ← memmapAllocRange cfg s ptr count memmapUsable 0 false false true
        return s

/-- One turn of the top-down search: `alloc_base` and the end of the range reserved in `e`. -/
def extCandidate (limit count alignment : Nat) (e : MemmapEntry) : Option (Nat × Nat) :=
  if e.type ≠ memmapUsable then none
  else
    match checkedAdd e.base e.length with
    | none => none
    | some top =>
      let entryTop := if limit < top then limit else top
      if limit < top ∧ entryTop ≤ e.base then none
      else if entryTop - e.base < count then none
      else
        let allocBase := alignDown (entryTop - count) alignment
        if allocBase < e.base then none else some (allocBase, entryTop)

/-- `UINT64_MAX`. -/
def uint64Max : Nat := 2 ^ 64 - 1

/-- The loop over the entries from the last one, and on x86 a second one without the 4 GiB limit. -/
def extSearch (cfg : Config) (m : Memmap) (count alignment : Nat) (allowHighAllocs : Bool) :
    Option (Nat × Nat) :=
  if cfg.isX86 then
    match m.reverse.findSome? (extCandidate 0x100000000 count alignment) with
    | some r => some r
    | none =>
      if allowHighAllocs then m.reverse.findSome? (extCandidate uint64Max count alignment) else none
  else m.reverse.findSome? (extCandidate uint64Max count alignment)

/-- The size an allocation of `count` bytes is rounded to. -/
def extCount (count alignment : Nat) : Option Nat :=
  (checkedAdd (if count = 0 then 1 else count) (alignment - 1)).map fun c => alignDown c alignment

def extMemAllocTypeAlignedMode (cfg : Config) (s : PmmState) (count type alignment : Nat)
    (allowHighAllocs : Bool) : Exec (PmmState × Nat) :=
  match extCount count alignment with
  | none => .error (.panic "ext_mem_alloc: count overflows when aligning")
  | some count =>
    if s.allocationsDisallowed then .error (.panic "Memory allocations disallowed")
    else
      match extSearch cfg s.memmap count alignment allowHighAllocs with
      | none => .error (.panic "High memory allocator: Out of memory")
      | some (allocBase, entryTop) => do
        let (s, _) ← memmapAllocRange cfg s allocBase (entryTop - allocBase) type memmapUsable
          true false false
        let m ← pmmSanitiseEntries cfg.maxEntries cfg.keepFirstPage s.memmap false
        return ({ s with memmap := m }, allocBase)

/-- The search loop of `conv_mem_alloc`; `base + count` wraps at 64 bits. -/
def convLoop (cfg : Config) (count : Nat) : Nat → PmmState → Exec (PmmState × Nat)
  | 0, _ => .error .outOfFuel
  | fuel + 1, s =>
    if 0x100000 < (s.convBase + count) % 2 ^ 64 then
      .error (.panic "Conventional memory allocation failed")
    else
      match memmapAllocRange cfg s s.convBase count memmapBootloaderReclaimable memmapUsable
          false false false with
      | .error stop => .error stop
      | .ok (s, true) => do
        let m ← pmmSanitiseEntries cfg.maxEntries cfg.keepFirstPage s.memmap false
        return ({ s with memmap := m, convBase := s.convBase + count }, s.convBase)
      | .ok (s, false) => convLoop cfg count fuel { s with convBase := s.convBase + 4096 }

def convMemAlloc (cfg : Config) (s : PmmState) (count : Nat) : Exec (PmmState × Nat) :=
  if s.allocationsDisallowed then .error (.panic "Memory allocations disallowed")
  else
    match alignUp (if count = 0 then 1 else count) 4096 with
    | none => .error (.panic "Alignment overflow")
    | some count => convLoop cfg count 1024 s

end Limine.Pmm
