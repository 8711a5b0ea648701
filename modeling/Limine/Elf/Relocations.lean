import Limine.Elf.Format
import Limine.Lib.Relr

/-!
# Relocations of an ELF64 file

`elf64_prepare_relocations` reads the dynamic section and builds one array of pointers to
relocations, those of DT_RELR in a pool of its own, those of DT_RELA and DT_JMPREL where they stand
in the file.  `elf64_apply_relocations` goes over the array for a part of the image.
-/

namespace Limine.Elf
open Limine.Loader Limine.Lib

@[match_pattern] def dtNull : Nat := 0x0
@[match_pattern] def dtNeeded : Nat := 0x1
@[match_pattern] def dtPltrelsz : Nat := 0x2
@[match_pattern] def dtStrtab : Nat := 0x5
@[match_pattern] def dtSymtab : Nat := 0x6
@[match_pattern] def dtRela : Nat := 0x7
@[match_pattern] def dtRelasz : Nat := 0x8
@[match_pattern] def dtRelaent : Nat := 0x9
@[match_pattern] def dtSyment : Nat := 0xb
@[match_pattern] def dtPltrel : Nat := 0x14
@[match_pattern] def dtJmprel : Nat := 0x17
@[match_pattern] def dtRelrsz : Nat := 0x23
@[match_pattern] def dtRelr : Nat := 0x24
@[match_pattern] def dtRelrent : Nat := 0x25

def shnUndef : Nat := 0
def shnAbs : Nat := 0xfff1
def stbWeak : Nat := 2

@[match_pattern] def rInternalRelr : Nat := 0xfffffff0

/-! ## The dynamic section -/

structure Dynamic where
  symtabOffset : Nat := 0
  symtabEnt : Nat := 0
  strtabOffset : Nat := 0
  dtPltrel : Nat := 0
  dtPltrelsz : Nat := 0
  dtJmprel : Nat := 0
  relrOffset : Nat := 0
  relrSize : Nat := 0
  relrEnt : Nat := 0
  relaOffset : Nat := 0
  relaSize : Nat := 0
  relaEnt : Nat := 0
deriving DecidableEq, Repr

/-- One entry; `none` is the end of the section. -/
def dynamicEntry (d : Dynamic) (dyn : Elf64Dyn) : Load (Option Dynamic) :=
  match dyn.tag with
  | dtRela => .ok (some { d with relaOffset := dyn.un })
  | dtRelaent => .ok (some { d with relaEnt := dyn.un })
  | dtRelasz => .ok (some { d with relaSize := dyn.un })
  | dtRelr => .ok (some { d with relrOffset := dyn.un })
  | dtRelrent => .ok (some { d with relrEnt := dyn.un })
  | dtRelrsz => .ok (some { d with relrSize := dyn.un })
  | dtSymtab => .ok (some { d with symtabOffset := dyn.un })
  | dtStrtab => .ok (some { d with strtabOffset := dyn.un })
  | dtSyment =>
    if dyn.un < elf64SymSize then Loader.panic "elf: symtab_ent < sizeof(struct elf64_sym)"
    else .ok (some { d with symtabEnt := dyn.un })
  | dtPltrel => .ok (some { d with dtPltrel := dyn.un })
  | dtPltrelsz => .ok (some { d with dtPltrelsz := dyn.un })
  | dtJmprel => .ok (some { d with dtJmprel := dyn.un })
  | dtNeeded => Loader.panic "elf: ELF file attempts to load a dynamically linked library"
  | dtNull => .ok none
  | _ => .ok (some d)

/-- The entries from `j` on, `n` of them still to come. -/
def dynamicEntries (f : File) (offset : Nat) : Nat → Nat → Dynamic → Load Dynamic
  | 0, _, d => .ok d
  | n + 1, j, d => do
    let dyn ← f.read (add64 offset (j * elf64DynSize)) elf64DynSize elf64Dyn
    match ← dynamicEntry d dyn with
    | none => .ok d
    | some d => dynamicEntries f offset n (j + 1) d

/-- The first PT_DYNAMIC segment; `none` is `return false`. -/
def dynamicSection (f : File) (hdr : Elf64Hdr) : Load (Option Dynamic) := do
  let found ← findPhdr (phdrAtInt f hdr) hdr fun phdr =>
    if phdr.type != ptDynamic then .ok none
    else match checkedAdd phdr.offset phdr.filesz with
      | none => .ok (some none)
      | some top =>
        if top > f.size ∨ phdr.offset % 8 ≠ 0 then .ok (some none)
        else do
          let d ← dynamicEntries f phdr.offset (phdr.filesz / elf64DynSize) 0 {}
          return some (some d)
  return found.getD (some {})

/-- The file offset of an address, and what the file has of its segment from there on; `none` is
`return false`. -/
def elf64TranslateVaddr (f : File) (hdr : Elf64Hdr) (offset sizeHint : Nat) :
    Load (Option (Nat × Nat)) := do
  let found ← findPhdr (phdrAtInt f hdr) hdr fun phdr =>
    match checkedAdd phdr.vaddr phdr.filesz with
    | none => .ok none
    | some segEnd =>
      if phdr.vaddr ≤ offset ∧ segEnd > offset then
        match checkedAdd phdr.offset phdr.filesz with
        | none => .ok (some none)
        | some top =>
          if top > f.size then .ok (some none)
          else
            let segSize := sub64 phdr.filesz (sub64 offset phdr.vaddr)
            let offset := add64 (sub64 offset phdr.vaddr) phdr.offset
            match checkedAdd offset sizeHint with
            | none => .ok (some none)
            | some hinted =>
              if hinted > f.size then .ok (some none) else .ok (some (some (offset, segSize)))
      else .ok none
  return found.getD none

/-- DT_RELA, DT_RELR or DT_JMPREL: the file offset of a table whose size the section gives. -/
def translateTable (f : File) (hdr : Elf64Hdr) (offset size : Nat) (failed sizeAlone : String) :
    Load Nat :=
  if offset ≠ 0 then do
    match ← elf64TranslateVaddr f hdr offset size with
    | some (offset, _) => return offset
    | none => Loader.panic failed
  else if size ≠ 0 then Loader.panic sizeAlone
  else .ok 0

/-- DT_SYMTAB or DT_STRTAB: the file offset, and the rest of the segment as the size. -/
def translateSegment (f : File) (hdr : Elf64Hdr) (offset : Nat) (failed : String) : Load (Nat × Nat) :=
  if offset ≠ 0 then do
    match ← elf64TranslateVaddr f hdr offset 0 with
    | some found => return found
    | none => Loader.panic failed
  else .ok (0, 0)

/-- Where symbols and their names are; a size of 0 is an unknown one. -/
structure SymTables where
  symtabOffset : Nat
  symtabEnt : Nat
  symtabSize : Nat
  strtabOffset : Nat
  strtabSize : Nat
deriving DecidableEq, Repr

/-- The dynamic section after the translation of its addresses. -/
structure Tables extends SymTables where
  relaOffset : Nat
  relaSize : Nat
  relaEnt : Nat
  relrOffset : Nat
  relrSize : Nat
  relrEnt : Nat
  dtPltrel : Nat
  dtPltrelsz : Nat
  dtJmprel : Nat
deriving DecidableEq, Repr

def locateTables (f : File) (hdr : Elf64Hdr) (d : Dynamic) : Load Tables := do
  panicIf (d.relaEnt != 0 && d.relaEnt < elf64RelaSize) "elf: rela_ent < sizeof(struct elf64_rela)"
  let relaOffset ← translateTable f hdr d.relaOffset d.relaSize
    "elf: RELA vaddr translation failed or out of bounds" "elf: DT_RELASZ without DT_RELA"
  let relrOffset ← translateTable f hdr d.relrOffset d.relrSize
    "elf: RELR vaddr translation failed or out of bounds" "elf: DT_RELRSZ without DT_RELR"
  let symtab ← translateSegment f hdr d.symtabOffset
    "elf: SYMTAB vaddr translation failed or out of bounds"
  let strtab ← translateSegment f hdr d.strtabOffset
    "elf: STRTAB vaddr translation failed or out of bounds"
  let dtJmprel ← translateTable f hdr d.dtJmprel d.dtPltrelsz
    "elf: JMPREL vaddr translation failed or out of bounds" "elf: DT_PLTRELSZ without DT_JMPREL"
  panicIf (relaOffset % 8 != 0 || d.relaEnt % 8 != 0 || relrOffset % 8 != 0 ||
      symtab.1 % 8 != 0 || d.symtabEnt % 8 != 0 || dtJmprel % 8 != 0)
    "elf: Dynamic table is not naturally aligned in the file"
  return {
    relaOffset := relaOffset, relaSize := d.relaSize, relaEnt := d.relaEnt
    relrOffset := relrOffset, relrSize := d.relrSize, relrEnt := d.relrEnt
    symtabOffset := symtab.1, symtabEnt := d.symtabEnt, symtabSize := symtab.2
    strtabOffset := strtab.1, strtabSize := strtab.2
    dtPltrel := d.dtPltrel, dtPltrelsz := d.dtPltrelsz, dtJmprel := dtJmprel }

/-! ## Counting -/

def elf64AddRelocationCount (count add : Nat) : Load Nat :=
  if add > 2 ^ 64 - 1 - count then Loader.panic "elf: relocation count overflow"
  else .ok (count + add)

def relrEntry (f : File) (t : Tables) (i : Nat) : Load Nat :=
  f.read (t.relrOffset + i * t.relrEnt) 8 fun m off => leAt m off 8

/-- The words of DT_RELR from `i` on, `n` of them still to come. -/
def countRelr (f : File) (t : Tables) : Nat → Nat → Nat → Load Nat
  | 0, _, count => .ok count
  | n + 1, i, count => do
    let entry ← relrEntry f t i
    let count ← elf64AddRelocationCount count (if entry &&& 1 = 0 then 1 else Relr.popcount entry - 1)
    countRelr f t n (i + 1) count

/-- `relr_count` -/
def countRelrTable (f : File) (t : Tables) : Load Nat :=
  if t.relrSize ≠ 0 then do
    panicIf (t.relrEnt != 8) "elf: relr_ent != 8"
    countRelr f t (t.relrSize / t.relrEnt) 0 0
  else .ok 0

/-- The entries of DT_RELA or DT_JMPREL. -/
def countEntries (size ent count : Nat) (noEnt notMultiple : String) : Load Nat :=
  if size ≠ 0 then do
    panicIf (ent == 0) noEnt
    panicIf (size % ent != 0) notMultiple
    elf64AddRelocationCount count (size / ent)
  else .ok count

/-- `relr_count`, and how many relocations there are in all. -/
def countRelocations (f : File) (t : Tables) : Load (Nat × Nat) := do
  let relrCount ← countRelrTable f t
  let count ← countEntries t.relaSize t.relaEnt relrCount
    "elf: rela_size != 0 but rela_ent == 0" "elf: rela_size not a multiple of rela_ent"
  panicIf (t.dtPltrelsz != 0 && t.dtPltrel != dtRela) "elf: dt_pltrel != DT_RELA"
  let count ← countEntries t.dtPltrelsz t.relaEnt count
    "elf: dt_pltrelsz != 0 but rela_ent == 0" "elf: dt_pltrelsz not a multiple of rela_ent"
  return (relrCount, count)

/-! ## Filling the array -/

/-- An element of `relocs`, which starts out null. -/
inductive RelocPtr
  | null
  | pool (k : Nat)
  | file (off : Nat)
deriving DecidableEq, Repr

def setReloc (relocs : List RelocPtr) (i : Nat) (p : RelocPtr) : Load (List RelocPtr) :=
  if i < relocs.length then .ok (relocs.set i p) else .error .tableBounds

/-- `*relocs[i]` of the pool changed by `g`. -/
def modifyPool (relocs : List RelocPtr) (pool : List Elf64Rela) (i : Nat)
    (g : Elf64Rela → Elf64Rela) : Load (List Elf64Rela) :=
  match relocs[i]? with
  | some (.pool k) => if k < pool.length then .ok (pool.modify k g) else .error .tableBounds
  | _ => .error .tableBounds

/-- The loop that points `relocs` to the pool, from `i` on with `n` to go. -/
def linkPool : Nat → Nat → List RelocPtr → List Elf64Rela → Load (List RelocPtr × List Elf64Rela)
  | 0, _, relocs, pool => .ok (relocs, pool)
  | n + 1, i, relocs, pool => do
    let relocs ← setReloc relocs i (.pool i)
    let pool ← modifyPool relocs pool i fun r => { r with info := rInternalRelr }
    linkPool n (i + 1) relocs pool

/-- `relocs[relr_i]->r_addr = addr` -/
def setAddr (relocs : List RelocPtr) (pool : List Elf64Rela) (relrI addr : Nat) : Load (List Elf64Rela) :=
  modifyPool relocs pool relrI fun r => { r with addr := addr }

/-- The bits of one bitmap: `for (j = 0; (entry >>= 1) != 0; j++)`. -/
def expandBits (relocs : List RelocPtr) (base entry j relrI : Nat) (pool : List Elf64Rela) :
    Load (Nat × List Elf64Rela) :=
  if _h : entry >>> 1 = 0 then .ok (relrI, pool)
  else if (entry >>> 1) &&& 1 ≠ 0 then do
    let pool ← setAddr relocs pool relrI (add64 base (j * 8))
    expandBits relocs base (entry >>> 1) (j + 1) (relrI + 1) pool
  else expandBits relocs base (entry >>> 1) (j + 1) relrI pool
termination_by entry
decreasing_by all_goals (rw [Nat.shiftRight_eq_div_pow] at *; omega)

/-- The words of DT_RELR from `i` on, `n` of them still to come; `base` is `where`. -/
def expandRelr (f : File) (t : Tables) (relocs : List RelocPtr) :
    Nat → Nat → Nat → Nat → List Elf64Rela → Load (Nat × List Elf64Rela)
  | 0, _, _, relrI, pool => .ok (relrI, pool)
  | n + 1, i, base, relrI, pool => do
    let entry ← relrEntry f t i
    if entry &&& 1 = 0 then do
      let pool ← setAddr relocs pool relrI entry
      expandRelr f t relocs n (i + 1) (add64 entry 8) (relrI + 1) pool
    else do
      let (relrI, pool) ← expandBits relocs base entry 0 relrI pool
      expandRelr f t relocs n (i + 1) (add64 base (63 * 8)) relrI pool

/-- `for (offset = 0; offset < size; offset += ent) relocs[i++] = elf + (table + offset);` -/
def linkFile (table size ent : Nat) : Nat → Nat → Nat → List RelocPtr → Load (List RelocPtr)
  | 0, _, _, _ => .error .outOfFuel
  | fuel + 1, i, offset, relocs =>
    if offset < size then do
      let relocs ← setReloc relocs i (.file (add64 table offset))
      linkFile table size ent fuel (i + 1) (add64 offset ent) relocs
    else .ok relocs

structure RelocState extends SymTables where
  relocs : List RelocPtr
  relocsI : Nat
  relrPool : List Elf64Rela
  relrCount : Nat
deriving DecidableEq, Repr

/-- `relr_pool`, whose entries are zero. -/
def allocPool (alloc : Allocator) (relrCount : Nat) : Load (List Elf64Rela) :=
  if relrCount ≠ 0 then do
    extMemAllocCounted alloc 1 relrCount elf64RelaSize
    return List.replicate relrCount ⟨0, 0, 0, 0⟩
  else .ok []

/-- `relocs` and `relr_pool`, after the section on DT_RELR. -/
def fillRelr (alloc : Allocator) (f : File) (t : Tables) (relrCount : Nat) (relocs : List RelocPtr) :
    Load (List RelocPtr × List Elf64Rela) :=
  if t.relrSize ≠ 0 then do
    let pool ← allocPool alloc relrCount
    let (relocs, pool) ← linkPool relrCount 0 relocs pool
    let (_, pool) ← expandRelr f t relocs (t.relrSize / t.relrEnt) 0 0 0 pool
    return (relocs, pool)
  else .ok (relocs, [])

/-- The entries of DT_RELA or DT_JMPREL, from `relocs[i]` on. -/
def fillEntries (table size ent i : Nat) (relocs : List RelocPtr) : Load (List RelocPtr) :=
  if size ≠ 0 then linkFile table size ent (size + 1) i 0 relocs else .ok relocs

def fillRelocations (alloc : Allocator) (f : File) (t : Tables) (relrCount relocsI : Nat) :
    Load RelocState := do
  extMemAllocCounted alloc 0 relocsI 8
  let (relocs, pool) ← fillRelr alloc f t relrCount (List.replicate relocsI .null)
  let relocs ← fillEntries t.relaOffset t.relaSize t.relaEnt relrCount relocs
  let relocs ← fillEntries t.dtJmprel t.dtPltrelsz t.relaEnt (relrCount + t.relaSize / t.relaEnt) relocs
  return {
    toSymTables := t.toSymTables
    relocs := relocs, relocsI := relocsI, relrPool := pool, relrCount := relrCount }

/-- Whether `hdr->phoff + hdr->ph_num * hdr->phdr_size` is past the file. -/
def tableOutside (f : File) (hdr : Elf64Hdr) : Bool :=
  match (checkedMul hdr.phNum hdr.phdrSize).bind (checkedAdd hdr.phoff) with
  | none => true
  | some top => top > f.size

/-- The tables of the dynamic section; `none` is `return false`. -/
def dynamicTables (f : File) (hdr : Elf64Hdr) : Load (Option Tables) := do
  checkPhdrSize hdr
  if tableOutside f hdr then return none
  match ← dynamicSection f hdr with
  | none => return none
  | some d => do
    let t ← locateTables f hdr d
    return some t

/-- `none` is `return false`. -/
def elf64PrepareRelocations (alloc : Allocator) (f : File) (hdr : Elf64Hdr) : Load (Option RelocState) := do
  match ← dynamicTables f hdr with
  | none => return none
  | some t => do
    let (relrCount, relocsI) ← countRelocations f t
    let st ← fillRelocations alloc f t relrCount relocsI
    return some st

/-! ## Applying -/

/-- What the cases of the switch on `r_info` are. -/
inductive RelocKind
  | none
  | relative
  | internalRelr
  | symbol (withAddend : Bool)
deriving DecidableEq, Repr

/-- GLOB_DAT and JUMP_SLOT take no addend, except on aarch64. -/
def relocKind : Arch → Nat → Option RelocKind
  | _, rInternalRelr => some .internalRelr
  | .x86_64, 0x0 => some .none
  | .x86_64, 0x8 => some .relative
  | .x86_64, 0x6 => some (.symbol false)
  | .x86_64, 0x7 => some (.symbol false)
  | .x86_64, 0x1 => some (.symbol true)
  | .aarch64, 0x0 => some .none
  | .aarch64, 0x403 => some .relative
  | .aarch64, 0x401 => some (.symbol true)
  | .aarch64, 0x402 => some (.symbol true)
  | .aarch64, 0x101 => some (.symbol true)
  | .riscv64, 0x0 => some .none
  | .riscv64, 0x3 => some .relative
  | .riscv64, 0x5 => some (.symbol false)
  | .riscv64, 0x2 => some (.symbol true)
  | .loongarch64, 0x0 => some .none
  | .loongarch64, 0x3 => some .relative
  | .loongarch64, 0x5 => some (.symbol false)
  | .loongarch64, 0x2 => some (.symbol true)
  | _, _ => Option.none

/-- The symbol of a relocation; `none` is an undefined weak one. -/
def relocSymbol (f : File) (st : SymTables) (symbol : Nat) : Load (Option Elf64Sym) := do
  panicIf (st.symtabOffset == 0 || st.symtabEnt == 0)
    "elf: Relocation requires symbol table but none present"
  panicIf (st.symtabSize == 0) "elf: Symtab vaddr translation failed"
  let symOffset ← orPanic "elf: Symbol offset overflow" (checkedMul st.symtabEnt symbol)
  panicIf (st.symtabSize < elf64SymSize || symOffset > st.symtabSize - elf64SymSize)
    "elf: Symbol index %u out of bounds"
  let s ← f.read (st.symtabOffset + symOffset) elf64SymSize elf64Sym
  if s.shndx = shnUndef then
    if s.info >>> 4 = stbWeak then return none
    else do
      panicIf (st.strtabSize == 0) "elf: Strtab vaddr translation failed"
      panicIf (s.name ≥ st.strtabSize) "elf: Symbol name offset out of bounds"
      -- The message holds the rest of the string table.
      f.read (st.strtabOffset + s.name) (st.strtabSize - s.name) fun _ _ => ()
      Loader.panic "elf: Unresolved symbol \"%S\""
  else return some s

/-- What a relocation does to its eight bytes. -/
inductive Effect
  | keep
  | store (v : Nat)
  | add (v : Nat)
deriving DecidableEq, Repr

def relocEffect (arch : Arch) (f : File) (st : SymTables) (slide : Nat) (r : Elf64Rela) : Load Effect :=
  match relocKind arch r.info with
  | some .none => .ok .keep
  | some .relative => .ok (.store (add64 slide r.addend))
  | some .internalRelr => .ok (.add slide)
  | some (.symbol withAddend) => do
    match ← relocSymbol f st r.symbol with
    | none => return .store 0
    | some s =>
      let value := if s.shndx ≠ shnAbs then add64 s.value slide else s.value
      return .store (if withAddend then add64 value r.addend else value)
  | Option.none => Loader.panic "elf: Unknown relocation type: %x"

def applyEffect (reg : Region) (m : Bytes) (ptr : Nat) : Effect → Load Bytes
  | .keep => .ok m
  | .store v => storeNat reg m ptr 8 v
  | .add v => do
    let old ← loadNat reg m ptr 8
    storeNat reg m ptr 8 (add64 old v)

def derefPtr (f : File) (pool : List Elf64Rela) : RelocPtr → Load Elf64Rela
  | .null => .error .tableBounds
  | .pool k =>
    match pool[k]? with
    | some r => .ok r
    | none => .error .tableBounds
  | .file off => f.read off elf64RelaSize elf64Rela

/-- `*relocs[i]` -/
def derefReloc (f : File) (st : RelocState) (i : Nat) : Load Elf64Rela :=
  match st.relocs[i]? with
  | some p => derefPtr f st.relrPool p
  | none => .error .tableBounds

/-- One relocation, if its target lies in the `size` bytes at `vaddr`, which stand at `buffer`. -/
def applyReloc (arch : Arch) (f : File) (st : SymTables) (reg : Region) (buffer vaddr size slide : Nat)
    (m : Bytes) (r : Elf64Rela) : Load Bytes :=
  if r.addr < vaddr then .ok m
  else if size < 8 ∨ r.addr > sub64 (add64 vaddr size) 8 then .ok m
  else do
    let e ← relocEffect arch f st slide r
    applyEffect reg m (add64 buffer (sub64 r.addr vaddr)) e

/-- The relocations from `i` on, `n` of them still to come. -/
def applyFrom (arch : Arch) (f : File) (st : RelocState) (reg : Region) (buffer vaddr size slide : Nat) :
    Nat → Nat → Bytes → Load Bytes
  | 0, _, m => .ok m
  | n + 1, i, m => do
    let r ← derefReloc f st i
    let m ← applyReloc arch f st.toSymTables reg buffer vaddr size slide m r
    applyFrom arch f st reg buffer vaddr size slide n (i + 1) m

def elf64ApplyRelocations (arch : Arch) (f : File) (st : RelocState) (reg : Region)
    (buffer vaddr size slide : Nat) (m : Bytes) : Load Bytes :=
  applyFrom arch f st reg buffer vaddr size slide st.relocsI 0 m

end Limine.Elf
