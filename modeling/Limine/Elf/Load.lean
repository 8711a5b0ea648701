import Limine.Elf.Relocations
import Limine.Loader.Placement

/-!
# `elf64_load`

The headers are checked, the segments laid out, memory and a slide chosen, the relocations
prepared; then each segment is copied and relocated in turn, and the ranges that the page tables
will need are computed.
-/

namespace Limine.Elf
open Limine.Loader Limine.Lib

def elfPfX : Nat := 1
def elfPfW : Nat := 2
def elfPfR : Nat := 4

/-- What a load depends on besides the file. -/
structure LoadArgs where
  arch : Arch
  alloc : Allocator
  /-- The values of `safe_rand32`. -/
  rand : Nat → UInt32
  kaslr : Bool
  /-- `is_reloc != NULL` -/
  isReloc : Bool
  /-- `ranges != NULL`, and then `ranges_count` is not either. -/
  ranges : Bool

/-- The checks up to that of PT_DYNAMIC; whether the executable is relocatable. -/
def elf64CheckHeader (arch : Arch) (f : File) (hdr : Elf64Hdr) : Load Bool := do
  elf64Validate arch hdr
  panicIf (hdr.type != etExec && hdr.type != etDyn) "elf: ELF file not of type ET_EXEC nor ET_DYN"
  checkPhdrSize hdr
  let phdrTableEnd ← orPanic "elf: Program header table size overflow"
    ((checkedMul hdr.phNum hdr.phdrSize).bind fun size => checkedAdd size hdr.phoff)
  panicIf (phdrTableEnd > f.size) "elf: Program header table extends beyond file bounds"
  elf64IsRelocatable f hdr

/-- `p_align` is neither 0 or 1 nor a power of 2. -/
def Elf64Phdr.badAlign (phdr : Elf64Phdr) : Bool :=
  phdr.align > 1 && phdr.align &&& (phdr.align - 1) != 0

/-- `ret` and `loadable` after a header. -/
def maxAlignStep (acc : Nat × Nat) (phdr : Elf64Phdr) : Load (Nat × Nat) :=
  if !phdr.loadable then .ok acc
  else if phdr.badAlign then Loader.panic "elf: p_align is not a power of 2"
  else .ok (if phdr.align > acc.1 then phdr.align else acc.1, acc.2 + 1)

def elf64MaxAlign (f : File) (hdr : Elf64Hdr) : Load Nat := do
  checkPhdrSize hdr
  let acc ← forPhdrs f hdr maxAlignStep (0, 0)
  panicIf (acc.2 == 0) "elf: Executable has no loadable segments"
  return if acc.1 < 4096 then 4096 else acc.1

/-! ## The layout -/

/-- What the first loop of `elf64_load` carries along. -/
structure Layout where
  lowerToHigher : Bool := false
  higherHalf : Bool := false
  minVaddr : Nat := 2 ^ 64 - 1
  maxVaddr : Nat := 0
  prevTop : Nat := 0
  prevRoundedTop : Nat := 0
  prevFlags : Nat := 0
deriving DecidableEq, Repr

/-- The checks on the half of the address space a segment is in. -/
def checkHalf (isReloc : Bool) (s : Layout) (phdr : Elf64Phdr) : Load Layout :=
  if phdr.vaddr < fixedHigherHalfOffset64 then do
    panicIf (!isReloc) "elf: Lower half PHDRs are not allowed"
    panicIf s.higherHalf "elf: Mix of lower and higher half PHDRs in relocatable kernel"
    return { s with lowerToHigher := true }
  else do
    panicIf s.lowerToHigher "elf: Mix of lower and higher half PHDRs in relocatable kernel"
    return { s with higherHalf := true }

def layoutStep (isReloc ranges : Bool) (s : Layout) (phdr : Elf64Phdr) : Load Layout :=
  if !phdr.loadable then .ok s
  else do
    let s ← checkHalf isReloc s phdr
    let phdrEnd ← orPanic "elf: p_vaddr + p_memsz overflow in PHDR %u" (checkedAdd phdr.vaddr phdr.memsz)
    panicIf (phdr.vaddr < s.prevTop)
      "elf: Attempted to load ELF file with overlapping or out of order PHDRs (%u)"
    let roundedBase := alignDown phdr.vaddr 4096
    panicIf (ranges && roundedBase < s.prevRoundedTop && (phdr.flags &&& 0b111) != s.prevFlags)
      "elf: Attempted to load ELF file with PHDRs with different permissions sharing the same memory page."
    let prevRoundedTop ← orPanic "elf: PHDR alignment overflow" (alignUp phdrEnd 4096)
    return { s with
      prevTop := phdrEnd
      prevRoundedTop := prevRoundedTop
      prevFlags := phdr.flags &&& 0b111
      minVaddr := if phdr.vaddr < s.minVaddr then phdr.vaddr else s.minVaddr
      maxVaddr := if phdrEnd > s.maxVaddr then phdrEnd else s.maxVaddr }

/-! ## The slide -/

def chooseSlide (args : LoadArgs) (isReloc : Bool) (maxAlign minVaddr imageSize lowerSlide : Nat) :
    Load Nat :=
  if isReloc && args.kaslr then
    kaslrSlide "elf: Image wants to load too high" args.rand maxAlign minVaddr imageSize lowerSlide
      maxSimulatedTries 0
  else .ok lowerSlide

/-! ## The segments -/

/-- The memory and `bss_size` after a header. -/
def segmentStep (arch : Arch) (f : File) (st : RelocState) (reg : Region)
    (maxVaddr virtualBase slide : Nat) (acc : Bytes × Nat) (phdr : Elf64Phdr) : Load (Bytes × Nat) :=
  if !phdr.loadable then .ok acc
  else do
    panicIf (phdr.filesz > phdr.memsz) "elf: p_filesz > p_memsz"
    let offsetEnd ← orPanic "elf: p_offset + p_filesz overflow" (checkedAdd phdr.offset phdr.filesz)
    panicIf (offsetEnd > f.size) "elf: p_offset + p_filesz exceeds file size"
    let loadAddr := add64 reg.base (sub64 phdr.vaddr virtualBase)
    let _ ← orPanic "elf: load_addr + p_memsz overflow" (checkedAdd loadAddr phdr.memsz)
    let m ← memcpy reg acc.1 f loadAddr phdr.offset phdr.filesz
    let m ← elf64ApplyRelocations arch f st reg loadAddr phdr.vaddr phdr.memsz slide m
    return (m, if add64 phdr.vaddr phdr.memsz = maxVaddr then phdr.memsz - phdr.filesz else acc.2)

/-! ## The ranges -/

/-- A segment that gets a range. -/
def ranged (isReloc : Bool) (phdr : Elf64Phdr) : Bool :=
  phdr.loadable && !(phdr.vaddr < fixedHigherHalfOffset64 && !isReloc)

def permissionsOf (flags : Nat) : Nat :=
  (if flags &&& elfPfX ≠ 0 then memRangeX else 0) ||| (if flags &&& elfPfW ≠ 0 then memRangeW else 0) |||
    if flags &&& elfPfR ≠ 0 then memRangeR else 0

/-- `ranges`, as far as it is filled, after a header. -/
def rangeStep (isReloc : Bool) (slide rangesCount : Nat) (acc : List MemRange) (phdr : Elf64Phdr) :
    Load (List MemRange) :=
  if !ranged isReloc phdr then .ok acc
  else do
    let loadAddr := add64 phdr.vaddr slide
    let thisTop ← orPanic "elf: p_vaddr + p_memsz overflow in PHDR %u" (checkedAdd loadAddr phdr.memsz)
    let base := alignDown loadAddr 4096
    let top ← orPanic "elf: Alignment overflow" (alignUp thisTop 4096)
    if acc.length < rangesCount then
      return acc ++ [⟨base, sub64 top base, permissionsOf phdr.flags⟩]
    else .error .tableBounds

def elf64GetRanges (alloc : Allocator) (f : File) (hdr : Elf64Hdr) (slide : Nat) :
    Load (List MemRange) := do
  checkPhdrSize hdr
  let isReloc ← elf64IsRelocatable f hdr
  let rangesCount ← forPhdrs f hdr
    (fun count phdr => .ok (if ranged isReloc phdr then count + 1 else count)) 0
  panicIf (rangesCount == 0) "elf: No higher half PHDRs exist"
  extMemAllocCounted alloc 2 rangesCount 24
  forPhdrs f hdr (rangeStep isReloc slide rangesCount) []

def loadRanges (args : LoadArgs) (f : File) (hdr : Elf64Hdr) (slide : Nat) : Load (List MemRange) :=
  if args.ranges then elf64GetRanges args.alloc f hdr slide else .ok []

/-! ## The whole function -/

/-- What `elf64_load` leaves behind. -/
structure Loaded where
  region : Region
  memory : Bytes
  entryPoint : Nat
  slide : Nat
  virtualBase : Nat
  imageSizeBeforeBss : Nat
  isReloc : Bool
  ranges : List MemRange

/-- `elf64_load` from the layout on. -/
def elf64LoadImage (args : LoadArgs) (f : File) (hdr : Elf64Hdr) (isReloc : Bool) (maxAlign : Nat)
    (layout : Layout) : Load Loaded := do
  panicIf (layout.minVaddr == 2 ^ 64 - 1) "elf: No usable PHDRs exist"
  let minVaddr := alignDown layout.minVaddr 4096
  let lowerSlide := if layout.lowerToHigher then sub64 fixedHigherHalfOffset64 minVaddr else 0
  let imageSize := sub64 layout.maxVaddr minVaddr
  let reg ← imageMemory args.alloc imageSize maxAlign
  let slide ← chooseSlide args isReloc maxAlign minVaddr imageSize lowerSlide
  match ← elf64PrepareRelocations args.alloc f hdr with
  | none => Loader.panic "elf: Failed to apply relocations"
  | some st => do
    let (memory, bssSize) ← forPhdrs f hdr
      (segmentStep args.arch f st reg layout.maxVaddr minVaddr slide) (fun _ => 0, 0)
    let ranges ← loadRanges args f hdr slide
    return {
      region := reg, memory := memory, entryPoint := add64 hdr.entry slide, slide := slide
      virtualBase := add64 minVaddr slide, imageSizeBeforeBss := sub64 imageSize bssSize
      isReloc := isReloc, ranges := ranges }

def elf64Load (args : LoadArgs) (f : File) : Load Loaded := do
  let hdr ← f.read 0 elf64HdrSize elf64Hdr
  let relocatable ← elf64CheckHeader args.arch f hdr
  let isReloc := args.isReloc && relocatable
  let maxAlign ← elf64MaxAlign f hdr
  let layout ← forPhdrs f hdr (layoutStep isReloc args.ranges) {}
  elf64LoadImage args f hdr isReloc maxAlign layout

end Limine.Elf
