import Limine.Loader.Placement

/-!
# `pe64_load`

The headers and the sections of a PE32+ file, the walk over the blocks of its base relocations, and
the ranges.  The blocks lie in the image that the relocations write to, so what the walk reads next
may be what it has just written.
-/

namespace Limine.Pe
open Limine.Loader Limine.Lib

def imageDosSignature : Nat := 0x5a4d
def imageNtSignature : Nat := 0x4550
def imageNtOptionalHdr64Magic : Nat := 0x20b

def imageFileMachineAmd64 : Nat := 0x8664
def imageFileMachineArm64 : Nat := 0xaa64
def imageFileMachineRiscv64 : Nat := 0x5064
def imageFileMachineLoongarch64 : Nat := 0x6264

def imageFileRelocsStripped : Nat := 1

def imageScnMemExecute : Nat := 0x20000000
def imageScnMemRead : Nat := 0x40000000
def imageScnMemWrite : Nat := 0x80000000

def imageDirectoryEntryBasereloc : Nat := 5

def imageRelBasedAbsolute : Nat := 0
def imageRelBasedHighlow : Nat := 3
def imageRelBasedDir64 : Nat := 10

/-! ## The headers -/

structure ImageDosHeader where
  magic : Nat
  lfanew : Nat
deriving DecidableEq, Repr

def imageDosHeader (m : Nat → UInt8) (off : Nat) : ImageDosHeader where
  magic := leAt m off 2
  lfanew := leAt m (off + 60) 4

def imageDosHeaderSize : Nat := 64

structure ImageDataDirectory where
  virtualAddress : Nat
  size : Nat
deriving DecidableEq, Repr

def imageDataDirectory (m : Nat → UInt8) (off : Nat) : ImageDataDirectory where
  virtualAddress := leAt m off 4
  size := leAt m (off + 4) 4

/-- The file header and the optional header behind the signature. -/
structure ImageNtHeaders64 where
  signature : Nat
  machine : Nat
  numberOfSections : Nat
  sizeOfOptionalHeader : Nat
  characteristics : Nat
  magic : Nat
  addressOfEntryPoint : Nat
  imageBase : Nat
  sectionAlignment : Nat
  sizeOfImage : Nat
  sizeOfHeaders : Nat
  numberOfRvaAndSizes : Nat
  importDir : ImageDataDirectory
  relocDir : ImageDataDirectory
deriving DecidableEq, Repr

def imageNtHeaders64 (m : Nat → UInt8) (off : Nat) : ImageNtHeaders64 where
  signature := leAt m off 4
  machine := leAt m (off + 4) 2
  numberOfSections := leAt m (off + 6) 2
  sizeOfOptionalHeader := leAt m (off + 20) 2
  characteristics := leAt m (off + 22) 2
  magic := leAt m (off + 24) 2
  addressOfEntryPoint := leAt m (off + 40) 4
  imageBase := leAt m (off + 48) 8
  sectionAlignment := leAt m (off + 56) 4
  sizeOfImage := leAt m (off + 80) 4
  sizeOfHeaders := leAt m (off + 84) 4
  numberOfRvaAndSizes := leAt m (off + 132) 4
  importDir := imageDataDirectory m (off + 144)
  relocDir := imageDataDirectory m (off + 176)

def imageNtHeaders64Size : Nat := 264

def imageOptionalHeader64Size : Nat := 240

def imageFileHeaderSize : Nat := 20

structure ImageSectionHeader where
  virtualSize : Nat
  virtualAddress : Nat
  sizeOfRawData : Nat
  pointerToRawData : Nat
  characteristics : Nat
deriving DecidableEq, Repr

def imageSectionHeader (m : Nat → UInt8) (off : Nat) : ImageSectionHeader where
  virtualSize := leAt m (off + 8) 4
  virtualAddress := leAt m (off + 12) 4
  sizeOfRawData := leAt m (off + 16) 4
  pointerToRawData := leAt m (off + 20) 4
  characteristics := leAt m (off + 36) 4

def imageSectionHeaderSize : Nat := 40

def machineOf : Arch → Nat
  | .x86_64 => imageFileMachineAmd64
  | .aarch64 => imageFileMachineArm64
  | .riscv64 => imageFileMachineRiscv64
  | .loongarch64 => imageFileMachineLoongarch64

def wrongMachineMsg : Arch → String
  | .x86_64 => "pe: Not an x86-64 PE file"
  | .aarch64 => "pe: Not an ARM64 PE file"
  | .riscv64 => "pe: Not a RISC-V PE file"
  | .loongarch64 => "pe: Not a loongarch64 PE file"

/-- `pe64_validate`, with the headers it looks at. -/
def pe64Validate (arch : Arch) (f : File) : Load (ImageDosHeader × ImageNtHeaders64) := do
  panicIf (f.size < imageDosHeaderSize) "pe: File too small for DOS header"
  let dos ← f.read 0 imageDosHeaderSize imageDosHeader
  panicIf (dos.magic != imageDosSignature) "pe: Not a valid PE file"
  panicIf (f.size < imageNtHeaders64Size) "pe: File too small for NT headers"
  panicIf (dos.lfanew > f.size - imageNtHeaders64Size) "pe: e_lfanew offset out of bounds"
  panicIf (dos.lfanew % 8 != 0) "pe: NT headers are not aligned in the file"
  let nt ← f.read dos.lfanew imageNtHeaders64Size imageNtHeaders64
  panicIf (nt.signature != imageNtSignature) "pe: Not a valid PE file"
  panicIf (nt.magic != imageNtOptionalHdr64Magic) "pe: Not a valid PE32+ file"
  panicIf (nt.sizeOfOptionalHeader < imageOptionalHeader64Size) "pe: SizeOfOptionalHeader too small"
  panicIf (nt.machine != machineOf arch) (wrongMachineMsg arch)
  return (dos, nt)

/-! ## The sections -/

def ImageNtHeaders64.sectionsOffset (nt : ImageNtHeaders64) (dos : ImageDosHeader) : Nat :=
  dos.lfanew + 4 + imageFileHeaderSize + nt.sizeOfOptionalHeader

/-- `sections[i]`, with the table at `off`. -/
def sectionAt (f : File) (off i : Nat) : Load ImageSectionHeader :=
  f.read (off + i * imageSectionHeaderSize) imageSectionHeaderSize imageSectionHeader

/-- `for (size_t i = 0; i < NumberOfSections; i++)` -/
def forSections {α : Type} (f : File) (off count : Nat) (body : α → ImageSectionHeader → Load α) (a : α) :
    Load α :=
  (List.range count).foldlM (fun a i => do
    let section_ ← sectionAt f off i
    body a section_) a

/-- `section_raw_size` -/
def ImageSectionHeader.rawSize (s : ImageSectionHeader) : Nat :=
  if s.virtualSize < s.sizeOfRawData then s.virtualSize else s.sizeOfRawData

/-- The memory and `prev_section_top` after a section. -/
def sectionStep (f : File) (nt : ImageNtHeaders64) (reg : Region) (acc : Bytes × Nat)
    (s : ImageSectionHeader) : Load (Bytes × Nat) := do
  panicIf (s.virtualAddress + s.rawSize > nt.sizeOfImage) "pe: Section %U exceeds image bounds"
  panicIf (s.virtualAddress + s.virtualSize > nt.sizeOfImage) "pe: Section %U virtual size exceeds image bounds"
  panicIf (s.virtualAddress < acc.2) "pe: Section %U overlaps or is out of order"
  panicIf (s.virtualAddress % nt.sectionAlignment != 0) "pe: Section %U is not aligned to SectionAlignment"
  panicIf (s.pointerToRawData + s.rawSize > f.size) "pe: Section %U data extends beyond file bounds"
  let m ← memcpy reg acc.1 f (add64 reg.base s.virtualAddress) s.pointerToRawData s.rawSize
  return (m, s.virtualAddress + s.virtualSize)

/-- Unless a section covers them, the pages of the headers end before the first section. -/
def checkHeadersTop (f : File) (off : Nat) (nt : ImageNtHeaders64) : Load Unit := do
  let first ← sectionAt f off 0
  if first.virtualAddress ≠ 0 then do
    let headersTop ← orPanic "pe: Alignment overflow" (alignUp nt.sizeOfHeaders 0x1000)
    panicIf (headersTop > first.virtualAddress) "pe: Headers overlap the first section"
  else return ()

/-! ## Imports and relocations -/

def imageImportDescriptorSize : Nat := 20

def checkImports (nt : ImageNtHeaders64) (reg : Region) (m : Bytes) : Load Unit :=
  if nt.importDir.size ≠ 0 then do
    panicIf (nt.importDir.virtualAddress ≥ nt.sizeOfImage ||
        imageImportDescriptorSize > nt.sizeOfImage - nt.importDir.virtualAddress)
      "pe: Import directory VirtualAddress out of bounds"
    panicIf (nt.importDir.virtualAddress % 4 != 0) "pe: Import directory is not aligned in the image"
    let name ← loadNat reg m (add64 reg.base nt.importDir.virtualAddress + 12) 4
    panicIf (name != 0) "pe: Kernel must not have any imports"
  else return ()

/-- What a load knows when it comes to the relocations. -/
structure RelocArgs where
  imageSize : Nat
  slide : Nat
  lowerToHigher : Bool

def writeSize (lowerToHigher : Bool) (type : Nat) : Load Nat :=
  if type = imageRelBasedHighlow then do
    panicIf lowerToHigher "pe: 32-bit relocations are incompatible with higher-half loading"
    return 4
  else if type = imageRelBasedDir64 then return 8
  else Loader.panic "pe: Unsupported relocation type %u"

/-- Entry `i` of the block whose entries are at `relocs`. -/
def relocStep (a : RelocArgs) (reg : Region) (blockVa relocs : Nat) (m : Bytes) (i : Nat) : Load Bytes := do
  let entry ← loadNat reg m (relocs + 2 * i) 2
  if entry >>> 12 = imageRelBasedAbsolute then return m
  else do
    let size ← writeSize a.lowerToHigher (entry >>> 12)
    let offset := entry &&& 0xfff
    panicIf (blockVa + offset + size > a.imageSize) "pe: Relocation offset out of bounds"
    let ptr := add64 (add64 reg.base blockVa) offset
    let v ← loadNat reg m ptr size
    storeNat reg m ptr size (add64 v a.slide)

def imageBaseRelocationBlockSize : Nat := 8

/-- The blocks from `reloc_block_offset` on. -/
def relocBlocks (a : RelocArgs) (reg : Region) (dir : ImageDataDirectory) : Nat → Nat → Bytes → Load Bytes
  | 0, _, _ => .error .outOfFuel
  | fuel + 1, offset, m =>
    if sub64 dir.size offset ≥ imageBaseRelocationBlockSize then do
      panicIf ((dir.virtualAddress + offset) % 4 != 0) "pe: Relocation block is not aligned in the image"
      let block := add64 (add64 reg.base dir.virtualAddress) offset
      let blockVa ← loadNat reg m block 4
      let blockSize ← loadNat reg m (block + 4) 4
      panicIf (blockSize < imageBaseRelocationBlockSize) "pe: Invalid relocation block size"
      panicIf (blockSize > sub64 dir.size offset) "pe: Relocation block size exceeds directory"
      panicIf (blockVa ≥ a.imageSize) "pe: Relocation block VirtualAddress out of bounds"
      let entries := (blockSize - imageBaseRelocationBlockSize) / 2
      let m ← (List.range entries).foldlM
        (relocStep a reg blockVa (block + imageBaseRelocationBlockSize)) m
      relocBlocks a reg dir fuel (offset + blockSize) m
    else return m

/-- A block takes 8 bytes or more of the directory. -/
def applyRelocations (a : RelocArgs) (reg : Region) (dir : ImageDataDirectory) (m : Bytes) : Load Bytes :=
  if dir.virtualAddress ≠ 0 then do
    panicIf (dir.virtualAddress ≥ a.imageSize || dir.size > a.imageSize - dir.virtualAddress)
      "pe: Relocation directory VirtualAddress out of bounds"
    relocBlocks a reg dir (dir.size / imageBaseRelocationBlockSize + 1) 0 m
  else return m

/-! ## The ranges -/

def permissionsOf (characteristics : Nat) : Nat :=
  (if characteristics &&& imageScnMemExecute ≠ 0 then memRangeX else 0) |||
    (if characteristics &&& imageScnMemWrite ≠ 0 then memRangeW else 0) |||
      if characteristics &&& imageScnMemRead ≠ 0 then memRangeR else 0

/-- `range->length`, which must not reach beyond `image_top`. -/
def clampLength (imageTop base length : Nat) : Nat :=
  if length > sub64 imageTop base then sub64 imageTop base else length

/-- `ranges`, as far as it is filled, with one more range. -/
def pushRange (rangeCount : Nat) (acc : List MemRange) (range : MemRange) : Load (List MemRange) :=
  if acc.length < rangeCount then .ok (acc ++ [range]) else .error .tableBounds

def rangeStep (alignment virtualBase imageTop rangeCount : Nat) (acc : List MemRange)
    (s : ImageSectionHeader) : Load (List MemRange) := do
  let base := add64 virtualBase s.virtualAddress
  let length ← orPanic "pe: Alignment overflow" (alignUp s.virtualSize alignment)
  pushRange rangeCount acc ⟨base, clampLength imageTop base length, permissionsOf s.characteristics⟩

def headersRange (nt : ImageNtHeaders64) (virtualBase imageTop rangeCount : Nat) : Load (List MemRange) := do
  let length ← orPanic "pe: Alignment overflow" (alignUp nt.sizeOfHeaders 0x1000)
  pushRange rangeCount [] ⟨virtualBase, clampLength imageTop virtualBase length, memRangeR⟩

/-- The headers get a range of their own unless a section covers them. -/
def firstRanges (headersWithinSection : Bool) (nt : ImageNtHeaders64)
    (virtualBase imageTop rangeCount : Nat) : Load (List MemRange) :=
  if headersWithinSection then .ok [] else headersRange nt virtualBase imageTop rangeCount

def getRanges (alloc : Allocator) (f : File) (off : Nat) (nt : ImageNtHeaders64) (virtualBase : Nat) :
    Load (List MemRange) := do
  let (headersWithinSection, count) ← forSections f off nt.numberOfSections
    (fun acc s => .ok (if s.virtualAddress = 0 then true else acc.1, acc.2 + 1)) (false, 0)
  let rangeCount := if headersWithinSection then count else count + 1
  extMemAllocCounted alloc 0 rangeCount 24
  let imageExtent ← orPanic "pe: Alignment overflow" (alignUp nt.sizeOfImage 0x1000)
  let imageTop ← orPanic "pe: Image extends past the address space" (checkedAdd virtualBase imageExtent)
  let ranges ← firstRanges headersWithinSection nt virtualBase imageTop rangeCount
  forSections f off nt.numberOfSections (rangeStep nt.sectionAlignment virtualBase imageTop rangeCount) ranges

/-! ## The whole function -/

/-- What a load depends on besides the file; `ranges` tells whether `_ranges` is not NULL. -/
structure LoadArgs where
  arch : Arch
  alloc : Allocator
  rand : Nat → UInt32
  kaslr : Bool
  ranges : Bool

structure Loaded where
  region : Region
  memory : Bytes
  entryPoint : Nat
  slide : Nat
  virtualBase : Nat
  isReloc : Bool
  ranges : List MemRange

/-- The checks of the section table and of `SectionAlignment`. -/
def checkSections (f : File) (off : Nat) (nt : ImageNtHeaders64) : Load Unit := do
  panicIf (off + nt.numberOfSections * imageSectionHeaderSize > f.size)
    "pe: Section headers extend beyond file bounds"
  panicIf (off % 4 != 0) "pe: Section headers are not aligned in the file"
  panicIf (nt.numberOfSections == 0) "pe: Executable has no sections"
  panicIf (nt.sectionAlignment == 0) "pe: SectionAlignment is zero"
  panicIf (nt.sectionAlignment > 1 && nt.sectionAlignment &&& (nt.sectionAlignment - 1) != 0)
    "pe: SectionAlignment is not a power of 2"
  panicIf (nt.sectionAlignment < 0x1000) "pe: SectionAlignment is below the page size"

def ImageNtHeaders64.isReloc (nt : ImageNtHeaders64) : Bool :=
  nt.characteristics &&& imageFileRelocsStripped == 0

def ImageNtHeaders64.lowerToHigher (nt : ImageNtHeaders64) : Bool :=
  nt.imageBase < fixedHigherHalfOffset64

def ImageNtHeaders64.lowerSlide (nt : ImageNtHeaders64) : Nat :=
  if nt.lowerToHigher then sub64 fixedHigherHalfOffset64 nt.imageBase else 0

def chooseSlide (args : LoadArgs) (nt : ImageNtHeaders64) : Load Nat :=
  if nt.isReloc && args.kaslr then
    kaslrSlide "pe: Image wants to load too high" args.rand nt.sectionAlignment nt.imageBase nt.sizeOfImage
      nt.lowerSlide maxSimulatedTries 0
  else .ok nt.lowerSlide

def loadRanges (args : LoadArgs) (f : File) (off : Nat) (nt : ImageNtHeaders64) (virtualBase : Nat) :
    Load (List MemRange) :=
  if args.ranges then getRanges args.alloc f off nt virtualBase else .ok []

/-- `pe64_load` from the copy of the headers on. -/
def pe64LoadImage (args : LoadArgs) (f : File) (off : Nat) (nt : ImageNtHeaders64) (reg : Region) :
    Load Loaded := do
  panicIf (nt.sizeOfHeaders > f.size || nt.sizeOfHeaders > nt.sizeOfImage)
    "pe: SizeOfHeaders exceeds file or image size"
  let m ← memcpy reg (fun _ => 0) f reg.base 0 nt.sizeOfHeaders
  let slide ← chooseSlide args nt
  let (m, _) ← forSections f off nt.numberOfSections (sectionStep f nt reg) (m, 0)
  checkHeadersTop f off nt
  panicIf (nt.numberOfRvaAndSizes < imageDirectoryEntryBasereloc + 1)
    "pe: NumberOfRvaAndSizes too small for import/reloc directories"
  checkImports nt reg m
  let m ← applyRelocations ⟨nt.sizeOfImage, slide, nt.lowerToHigher⟩ reg nt.relocDir m
  let virtualBase := add64 nt.imageBase slide
  let ranges ← loadRanges args f off nt virtualBase
  return {
    region := reg, memory := m, entryPoint := add64 virtualBase nt.addressOfEntryPoint, slide := slide
    virtualBase := virtualBase, isReloc := nt.isReloc, ranges := ranges }

def pe64Load (args : LoadArgs) (f : File) : Load Loaded := do
  let (dos, nt) ← pe64Validate args.arch f
  let off := nt.sectionsOffset dos
  checkSections f off nt
  panicIf (nt.lowerToHigher && !nt.isReloc) "pe: Lower half images are not allowed"
  let reg ← imageMemory args.alloc nt.sizeOfImage nt.sectionAlignment
  pe64LoadImage args f off nt reg

end Limine.Pe
