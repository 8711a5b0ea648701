import Limine.Elf.Relocations

/-!
# A section of an ELF64 file in memory of its own

`elf64_load_section` finds a section by its name and copies it to memory the allocator gives by the
page, with the relocations that fall into it applied.  Its only caller passes a `limit` of 0, which
asks for that memory; the buffer is then as large as the section.
-/

namespace Limine.Elf
open Limine.Loader Limine.Lib

/-- The header with what only the sections need. -/
structure Elf64SectionHdr extends Elf64Hdr where
  shNum : Nat
  shstrndx : Nat
deriving DecidableEq, Repr

def elf64SectionHdr (m : Nat → UInt8) (off : Nat) : Elf64SectionHdr where
  toElf64Hdr := elf64Hdr m off
  shNum := leAt m (off + 60) 2
  shstrndx := leAt m (off + 62) 2

structure Elf64Shdr where
  name : Nat
  addr : Nat
  offset : Nat
  size : Nat
deriving DecidableEq, Repr

def elf64Shdr (m : Nat → UInt8) (off : Nat) : Elf64Shdr where
  name := leAt m off 4
  addr := leAt m (off + 16) 8
  offset := leAt m (off + 24) 8
  size := leAt m (off + 32) 8

def elf64ShdrSize : Nat := 64

/-- Header `i`, with `i` a `uint16_t`: both factors promote to `int`. -/
def shdrAtInt (f : File) (hdr : Elf64SectionHdr) (i : Nat) : Load Elf64Shdr :=
  if 2 ^ 31 ≤ i * hdr.shdrSize then .error .signedOverflow
  else f.read (add64 hdr.shoff (i * hdr.shdrSize)) elf64ShdrSize elf64Shdr

/-- `hdr->shoff + hdr->sh_num * hdr->shdr_size` overflows or is past the file. -/
def shdrTableOutside (f : File) (hdr : Elf64SectionHdr) : Bool :=
  match (checkedMul hdr.shNum hdr.shdrSize).bind (checkedAdd hdr.shoff) with
  | none => true
  | some top => top > f.size

/-- The bytes of a section are not all in the file. -/
def Elf64Shdr.outside (f : File) (shdr : Elf64Shdr) : Bool :=
  shdr.offset ≥ f.size || shdr.size > f.size - shdr.offset

/-! ## Names -/

def byteAt (f : File) (off : Nat) : Load UInt8 := f.read off 1 fun m off => m off

/-- Whether `memchr` finds a NUL in the `n` bytes from `off` on. -/
def memchrNul (f : File) : Nat → Nat → Load Bool
  | 0, _ => .ok false
  | n + 1, off => do
    let b ← byteAt f off
    if b = 0 then return true
    memchrNul f n (off + 1)

/-- `strcmp` of what stands at `off` and a name is 0. -/
def strcmpEq (f : File) : List UInt8 → Nat → Load Bool
  | [], off => do
    let b ← byteAt f off
    return b = 0
  | c :: cs, off => do
    let b ← byteAt f off
    if b ≠ c then return false
    strcmpEq f cs (off + 1)

def sectionNamed (f : File) (shstrtab : Elf64Shdr) (name : List UInt8) (shdr : Elf64Shdr) : Load Bool := do
  if shdr.name ≥ shstrtab.size then return false
  if !(← memchrNul f (shstrtab.size - shdr.name) (shstrtab.offset + shdr.name)) then return false
  strcmpEq f name (shstrtab.offset + shdr.name)

/-- The first section of the name, from header `i` on with `n` still to come. -/
def findSection (f : File) (hdr : Elf64SectionHdr) (shstrtab : Elf64Shdr) (name : List UInt8) :
    Nat → Nat → Load (Option Elf64Shdr)
  | 0, _ => .ok none
  | n + 1, i => do
    let shdr ← shdrAtInt f hdr i
    if ← sectionNamed f shstrtab name shdr then return some shdr
    findSection f hdr shstrtab name n (i + 1)

/-! ## Loading -/

/-- `ext_mem_alloc` -/
def extMemAlloc (alloc : Allocator) (count : Nat) : Load Region := do
  let count := if count = 0 then 1 else count
  let count ← orPanic "ext_mem_alloc: count overflows when aligning" (alignUp count 4096)
  imageMemory alloc count 4096

/-- The section's memory; `none` is `return false`. -/
def copySection (arch : Arch) (alloc : Allocator) (f : File) (hdr : Elf64SectionHdr) (slide : Nat)
    (shdr : Elf64Shdr) : Load (Option (Region × Bytes)) := do
  if shdr.outside f then return none
  let buffer ← extMemAlloc alloc shdr.size
  let m ← memcpy buffer (fun _ => 0) f buffer.base shdr.offset shdr.size
  match ← elf64PrepareRelocations alloc f hdr.toElf64Hdr with
  | none => return none
  | some st => do
    let m ← elf64ApplyRelocations arch f st buffer buffer.base shdr.addr shdr.size slide m
    return some (buffer, m)

/-- `none` is `return false`. -/
def elf64LoadSection (arch : Arch) (alloc : Allocator) (f : File) (name : List UInt8) (slide : Nat) :
    Load (Option (Region × Bytes)) := do
  let hdr ← f.read 0 elf64HdrSize elf64SectionHdr
  elf64Validate arch hdr.toElf64Hdr
  if hdr.shNum = 0 then return none
  panicIf (hdr.shdrSize < elf64ShdrSize) "elf: shdr_size < sizeof(struct elf64_shdr)"
  if hdr.shstrndx ≥ hdr.shNum then return none
  if shdrTableOutside f hdr then return none
  let shstrtab ← shdrAtInt f hdr hdr.shstrndx
  if shstrtab.outside f then return none
  match ← findSection f hdr shstrtab name hdr.shNum 0 with
  | none => return none
  | some shdr => copySection arch alloc f hdr slide shdr

/-! ## The memory is a page or more -/

theorem extMemAlloc_size {alloc : Allocator} {count : Nat} {buffer : Region}
    (h : extMemAlloc alloc count = .ok buffer) : count ≤ buffer.size ∧ 4096 ≤ buffer.size := by
  unfold extMemAlloc at h
  obtain ⟨size, hsize, h⟩ := except_bind_eq_ok.mp h
  have hmem := (imageMemory_safely alloc size 4096).of_ok h
  unfold orPanic at hsize
  split at hsize
  · next heq =>
    cases hsize
    unfold alignUp at heq
    obtain ⟨y, hy, rfl⟩ := Option.map_eq_some_iff.mp heq
    obtain ⟨-, rfl⟩ := checkedAdd_eq_some_iff.mp hy
    rw [hmem.1]
    by_cases hc : count = 0
    · rw [if_pos hc]
      omega
    · rw [if_neg hc]
      omega
  · cases hsize

theorem copySection_size {arch : Arch} {alloc : Allocator} {f : File} {hdr : Elf64SectionHdr} {slide : Nat}
    {shdr : Elf64Shdr} {buffer : Region} {m : Bytes}
    (h : copySection arch alloc f hdr slide shdr = .ok (some (buffer, m))) :
    shdr.size ≤ buffer.size ∧ 4096 ≤ buffer.size := by
  unfold copySection at h
  split at h
  · cases h
  · obtain ⟨buffer', halloc, h⟩ := except_bind_eq_ok.mp h
    obtain ⟨m₁, -, h⟩ := except_bind_eq_ok.mp h
    obtain ⟨st, -, h⟩ := except_bind_eq_ok.mp h
    split at h
    · cases h
    · obtain ⟨m₂, -, h⟩ := except_bind_eq_ok.mp h
      cases h
      exact extMemAlloc_size halloc

/-- A section that is loaded is in memory that holds all of it, and a page at least. -/
theorem elf64LoadSection_size {arch : Arch} {alloc : Allocator} {f : File} {name : List UInt8}
    {slide : Nat} {buffer : Region} {m : Bytes}
    (h : elf64LoadSection arch alloc f name slide = .ok (some (buffer, m))) : 4096 ≤ buffer.size := by
  unfold elf64LoadSection at h
  obtain ⟨hdr, -, h⟩ := except_bind_eq_ok.mp h
  obtain ⟨-, -, h⟩ := except_bind_eq_ok.mp h
  split at h
  · cases h
  obtain ⟨-, -, h⟩ := except_bind_eq_ok.mp h
  split at h
  · cases h
  split at h
  · cases h
  obtain ⟨shstrtab, -, h⟩ := except_bind_eq_ok.mp h
  split at h
  · cases h
  obtain ⟨found, -, h⟩ := except_bind_eq_ok.mp h
  split at h
  · cases h
  · exact (copySection_size h).2

end Limine.Elf
