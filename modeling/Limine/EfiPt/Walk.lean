import Limine.Vmm.PageTable

/-!
# Write-combining in the firmware's page tables

`efi_pt_set_fb_wc` gives a range of the firmware's page tables the PAT index of a write-combining
slot, and makes such a slot in the PAT where no entry uses it; `efi_pt_restore` replays the entries
it has overwritten.  Entries of tables that `wc_walk` has just made are not saved.  The contents of
the two save arrays are the list `saved`, the newest entry first.
-/

namespace Limine.EfiPt

open Limine.Lib Limine.Vmm

def pteP : PtEntry := 1 <<< 0
def pteRw : PtEntry := 1 <<< 1
def pteUs : PtEntry := 1 <<< 2
def ptePwt : PtEntry := 1 <<< 3
def ptePcd : PtEntry := 1 <<< 4
def ptePs : PtEntry := 1 <<< 7
def ptePat4k : PtEntry := 1 <<< 7
def ptePatBig : PtEntry := 1 <<< 12
def pteNx : PtEntry := 1 <<< 63
def ptAddrMask : PtEntry := 0x000FFFFFFFFFF000

def patTypeWc : BitVec 64 := 0x01

def savedPtesMax : Nat := 1024

/-- What stays the same while the loader runs under the firmware's tables. -/
structure Cpu where
  cr3 : PtEntry
  /-- `la57_enabled` -/
  la57 : Bool
  /-- `gib_pages_supported` -/
  gibPages : Bool
  /-- bit 16 of what `cpuid(1)` leaves in `edx` -/
  pat : Bool

/-- An element of `saved_pte_ptr` and of `saved_pte_val`. -/
structure SavedPte where
  table : Nat
  index : Nat
  val : PtEntry

structure State where
  memory : Memory
  /-- `IA32_PAT_MSR` -/
  pat : BitVec 64
  saved : List SavedPte
  /-- `saved_pte_ptr != NULL` -/
  hasArrays : Bool
  savedPat : BitVec 64
  patModified : Bool
  /-- `wc_pat_index`, which is -1 for none -/
  wcPatIndex : Option Nat
  gibSupported : Bool

namespace State

def setMemory (s : State) (m : Memory) : State := { s with memory := m }

/-- `*e = v` -/
def write (s : State) (table index : Nat) (v : PtEntry) : State :=
  s.setMemory { s.memory with
    mem := fun t i => if t = table ∧ i = index then v else s.memory.mem t i }

end State

/-- `(uint64_t)1 << ((lvl - 1) * 9 + 12)` -/
def step (lvl : Nat) : Nat := pageBytes (lvl - 1)

/-- `!!x` of a masked entry. -/
def flag (e mask : PtEntry) : Nat := if e &&& mask ≠ 0 then 1 else 0

/-- The physical address of a table. -/
def tableOf (e : PtEntry) : Nat := (e &&& ptAddrMask).toNat

/-- `save_pte`; `none` is false. -/
def savePte (s : State) (table index : Nat) : Option State :=
  if s.saved.length ≥ savedPtesMax then none
  else some { s with saved := ⟨table, index, s.memory.mem table index⟩ :: s.saved }

def ptePatIndex (e : PtEntry) (leaf4k : Bool) : Nat :=
  let patbit := if leaf4k then ptePat4k else ptePatBig
  flag e patbit <<< 2 ||| flag e ptePcd <<< 1 ||| flag e ptePwt

def walkPatIndex (e : PtEntry) : Nat := flag e ptePcd <<< 1 ||| flag e ptePwt

/-- The entry is a leaf of a table of level `lvl`, if it is present. -/
def isLeaf (lvl : Nat) (e : PtEntry) : Bool := lvl = 1 ∨ lvl ≤ 3 ∧ e &&& ptePs ≠ 0

/-- The loop of `scan_walk` over the entries from `i` on; `lower` is the call for a table below. -/
def scanLoop (lower : Nat → BitVec 8 → BitVec 8) (entry : Nat → PtEntry) (lvl : Nat) :
    Nat → Nat → BitVec 8 → BitVec 8
  | 0, _, used => used
  | n + 1, i, used =>
    if used = 0xff then used
    else
      let e := entry i
      let used :=
        if e &&& pteP = 0 then used
        else if isLeaf lvl e then used ||| 1 <<< ptePatIndex e (lvl = 1)
        else lower (tableOf e) (used ||| 1 <<< walkPatIndex e)
      scanLoop lower entry lvl n (i + 1) used

def scanWalk (mem : Nat → Nat → PtEntry) : Nat → Nat → BitVec 8 → BitVec 8
  | 0, _, used => used
  | lvl + 1, table, used => scanLoop (scanWalk mem lvl) (mem table) (lvl + 1) 512 0 used

def levels (cpu : Cpu) : Nat := if cpu.la57 then 5 else 4

def scanUsedPatIndices (cpu : Cpu) (mem : Nat → Nat → PtEntry) : BitVec 8 :=
  scanWalk mem (levels cpu) (tableOf cpu.cr3) (1 <<< walkPatIndex cpu.cr3)

/-- `(pat >> (i * 8)) & 0xff` -/
def patEntry (pat : BitVec 64) (i : Nat) : BitVec 64 := pat >>> (i * 8) &&& 0xff

/-- The first slot of the PAT that is write-combining. -/
def wcSlot (pat : BitVec 64) : Option Nat :=
  (List.range 8).find? fun i => patEntry pat i = patTypeWc

/-- A slot that is not used; the upper half is tried first. -/
def freeSlot (used : BitVec 8) : Option Nat :=
  ([4, 5, 6, 7] ++ [0, 1, 2, 3]).find? fun i => used &&& 1 <<< i = 0

def ensureWcPatSlot (cpu : Cpu) (s : State) : Bool × State :=
  if s.wcPatIndex.isSome then (true, s)
  else if cpu.pat = false then (false, s)
  else
    match wcSlot s.pat with
    | some i => (true, { s with wcPatIndex := some i })
    | none =>
      match freeSlot (scanUsedPatIndices cpu s.memory.mem) with
      | none => (false, s)
      | some slot => (true, { s with
          savedPat := s.pat
          patModified := true
          pat := (s.pat &&& ~~~((0xff : BitVec 64) <<< (slot * 8))) ||| patTypeWc <<< (slot * 8)
          wcPatIndex := some slot })

def pteSetPat (e : PtEntry) (idx : Nat) (leaf4k : Bool) : PtEntry :=
  let patbit := if leaf4k then ptePat4k else ptePatBig
  let e := e &&& ~~~(ptePwt ||| ptePcd ||| patbit)
  let e := if idx &&& 1 ≠ 0 then e ||| ptePwt else e
  let e := if idx &&& 2 ≠ 0 then e ||| ptePcd else e
  if idx &&& 4 ≠ 0 then e ||| patbit else e

/-- The bits of an entry that its successors keep. -/
def keepFlags : PtEntry := pteP ||| pteRw ||| pteUs ||| pteNx

/-- `e & PT_ADDR_MASK & ~(size - 1)` -/
def leafBase (e : PtEntry) (size : Nat) : PtEntry :=
  e &&& ptAddrMask &&& ~~~(BitVec.ofNat 64 (size - 1))

/-- Entry `i` of the table a leaf is split into. -/
def splitEntry (e : PtEntry) (lvl i : Nat) : PtEntry :=
  let physBase := leafBase e (step lvl)
  let idx := ptePatIndex e false
  let childLvl := lvl - 1
  let c := (physBase + BitVec.ofNat 64 (i * step childLvl)) ||| (e &&& keepFlags)
  pteSetPat (if childLvl = 1 then c else c ||| ptePs) idx (childLvl = 1)

/-- `ext_mem_alloc(0x1000)` -/
def allocTable (s : State) : Exec (Nat × State) := do
  let (p, m) ← extMemAlloc s.memory
  return (p, s.setMemory m)

def splitLeaf (s : State) (e : PtEntry) (lvl : Nat) : Exec (Nat × State) := do
  let (t, s) ← allocTable s
  return (t, s.setMemory { s.memory with
    mem := fun t' i => if t' = t ∧ i < 512 then splitEntry e lvl i else s.memory.mem t' i })

/-- The table `wc_walk` puts in place of `e`. -/
def childTable (s : State) (e : PtEntry) (lvl : Nat) : Exec (Nat × State) :=
  if e &&& pteP ≠ 0 then splitLeaf s e lvl else allocTable s

/-- `pristine && !save_pte(e)` is the `none`. -/
def saveIf (pristine : Bool) (s : State) (table index : Nat) : Option State :=
  if pristine then savePte s table index else some s

/-- The leaf `wc_walk` puts in place of `e`. -/
def wcLeaf (lvl va : Nat) (e : PtEntry) (idx : Nat) : PtEntry :=
  let leaf :=
    if e &&& pteP ≠ 0 ∧ isLeaf lvl e then leafBase e (step lvl) ||| (e &&& keepFlags)
    else BitVec.ofNat 64 va ||| pteP ||| pteRw
  pteSetPat (if lvl ≥ 2 then leaf ||| ptePs else leaf) idx (lvl = 1)

/-- `(uint64_t)child | PTE_P | PTE_RW | PTE_US` -/
def tableEntry (child : Nat) : PtEntry := BitVec.ofNat 64 child ||| pteP ||| pteRw ||| pteUs

/-- The body of `wc_walk`'s loop for an entry that the range reaches; `lower` is the call for a
table below. -/
def wcEntry (lower : State → Nat → Nat → Bool → Exec State) (lvl base top : Nat) (pristine : Bool)
    (s : State) (table i va : Nat) : Exec State :=
  let e := s.memory.mem table i
  let fully : Bool := va ≥ base ∧ va + step lvl ≤ top
  if fully ∧ lvl ≤ 3 ∧ (lvl < 3 ∨ s.gibSupported) then
    match saveIf pristine s table i with
    | none => .ok s
    | some s => .ok (s.write table i (wcLeaf lvl va e (s.wcPatIndex.getD 0)))
  else if e &&& pteP ≠ 0 ∧ isLeaf lvl e = false then lower s (tableOf e) va pristine
  else
    match saveIf pristine s table i with
    | none => .ok s
    | some s => do
      let (child, s) ← childTable s e lvl
      lower (s.write table i (tableEntry child)) child va false

/-- One turn of `wc_walk`'s loop. -/
def wcTurn (entry : State → Nat → Nat → Exec State) (lvl base : Nat) (s : State) (i va : Nat) :
    Exec State :=
  if va + step lvl ≤ base then .ok s else entry s i va

/-- The loop of `wc_walk` over the entries from `i` on. -/
def wcLoop (entry : State → Nat → Nat → Exec State) (lvl tblVa base top : Nat) :
    Nat → Nat → State → Exec State
  | 0, _, s => .ok s
  | n + 1, i, s =>
    let va := tblVa + i * step lvl
    if va ≥ top then .ok s
    else do
      let s ← wcTurn entry lvl base s i va
      wcLoop entry lvl tblVa base top n (i + 1) s

/-- `wc_walk`; there is no level 0. -/
def wcWalk (base top : Nat) : Nat → State → Nat → Nat → Bool → Exec State
  | 0, _, _, _, _ => .error .outOfFuel
  | lvl + 1, s, table, tblVa, pristine =>
    wcLoop (fun s i va => wcEntry (wcWalk base top lvl) (lvl + 1) base top pristine s table i va)
      (lvl + 1) tblVa base top 512 0 s

/-- What `efi_pt_set_fb_wc` does once there is a slot. -/
def wcRange (cpu : Cpu) (s : State) (base size : Nat) : Exec State :=
  match (checkedAdd base size).bind fun top => alignUp top 0x1000 with
  | none => .ok s
  | some top =>
    wcWalk (alignDown base 0x1000) top (levels cpu) { s with gibSupported := cpu.gibPages }
      (tableOf cpu.cr3) 0 true

def efiPtSetFbWc (cpu : Cpu) (s : State) (base size : Nat) : Exec State :=
  if size = 0 then .ok s
  else
    match ensureWcPatSlot cpu { s with hasArrays := true } with
    | (false, s) => .ok s
    | (true, s) => wcRange cpu s base size

def efiPtRestore (s : State) : State :=
  if s.saved = [] ∧ s.patModified = false then { s with hasArrays := false }
  else
    let s := s.saved.foldl (fun s p => s.write p.table p.index p.val) s
    let s := if s.patModified then { s with pat := s.savedPat } else s
    { s with saved := [], patModified := false, wcPatIndex := none, hasArrays := false }

end Limine.EfiPt
