import Limine.Loader.Memory
import Limine.Lib.Bytes

/-!
# GUID partition tables

`gpt_locate_header` looks for a header that verifies: for each block size behind LBA 0, then where the
primary says its alternate is and in the last block.  What it finds for a volume it keeps in one memo,
and that a volume has none in another; both are confirmed by a read before they are believed.
-/

namespace Limine.Part
open Limine.Lib
open Limine.Loader (checkedMul)

/-- The fields of a volume that say where it is. -/
structure Geometry where
  firstSect : Nat
  sectCount : Nat
  sectorSize : Nat
  isOptical : Bool
deriving DecidableEq, Repr

/-- `(uint64_t)-1` -/
def noSectCount : Nat := 2 ^ 64 - 1

/-- The volumes there are, with fixed contents and no I/O errors: what `volume_read` makes of a range is
up to the volume and the range alone.  A partition is a geometry on the device of its volume. -/
structure Media (V : Type) where
  geometry : V → Geometry
  read : V → Geometry → Nat → Nat → Option (List UInt8)

variable {V : Type}

/-- `volume_read` -/
def Media.volumeRead (m : Media V) (volume : V) (loc count : Nat) : Option (List UInt8) :=
  m.read volume (m.geometry volume) loc count

def partitionRangeValid (volume : Geometry) (firstSect sectCount : Nat) : Bool :=
  if sectCount = 0 then false
  else
    match checkedAdd firstSect sectCount with
    | none => false
    | some endSect => !(volume.sectCount ≠ noSectCount && endSect > volume.sectCount)

/-- The number in the `n` bytes from `off` on. -/
def field (bytes : List UInt8) (off n : Nat) : Nat := leNat ((bytes.drop off).take n)

/-- `struct gpt_table_header`, as its bytes. -/
abbrev GptTableHeader := List UInt8

def sizeofGptTableHeader : Nat := 92

namespace GptTableHeader
variable (header : GptTableHeader)

def signature : List UInt8 := header.take 8
def revision : Nat := field header 8 4
def headerSize : Nat := field header 12 4
def crc32 : Nat := field header 16 4
def myLba : Nat := field header 24 8
def alternateLba : Nat := field header 32 8
def firstUsableLba : Nat := field header 40 8
def lastUsableLba : Nat := field header 48 8
def diskGuid : List UInt8 := (header.drop 56).take 16
def partitionEntryLba : Nat := field header 72 8
def numberOfPartitionEntries : Nat := field header 80 4
def sizeOfPartitionEntry : Nat := field header 84 4
def partitionEntryArrayCrc32 : Nat := field header 88 4

/-- The header with its own checksum cleared. -/
def zeroed : List UInt8 := header.take 16 ++ [0, 0, 0, 0] ++ header.drop 20

end GptTableHeader

/-- `struct gpt_entry`, as its bytes. -/
abbrev GptEntry := List UInt8

def sizeofGptEntry : Nat := 128

namespace GptEntry
variable (entry : GptEntry)

def partitionTypeGuid : List UInt8 := entry.take 16
def uniquePartitionGuid : List UInt8 := (entry.drop 16).take 16
def startingLba : Nat := field entry 32 8
def endingLba : Nat := field entry 40 8

end GptEntry

/-- `"EFI PART"` -/
def efiPart : List UInt8 := [69, 70, 73, 32, 80, 65, 82, 84]

/-! ## Verifying a header -/

def crc32Bit (crc : UInt32) : UInt32 := if crc &&& 1 ≠ 0 then (crc >>> 1) ^^^ 0xedb88320 else crc >>> 1

def crc32Byte (crc : UInt32) (byte : UInt8) : UInt32 :=
  (List.range 8).foldl (fun crc _ => crc32Bit crc) (crc ^^^ byte.toUInt32)

def crc32Update (crc : UInt32) (buffer : List UInt8) : UInt32 := buffer.foldl crc32Byte crc

/-- The loop of `crc32_volume_range`, `chunks` being how often it runs. -/
def crc32Chunks (m : Media V) (volume : V) : Nat → Nat → Nat → UInt32 → Option UInt32
  | 0, _, _, crc => some crc
  | chunks + 1, loc, count, crc => do
    let step := min count 512
    let chunk ← m.volumeRead volume loc step
    crc32Chunks m volume chunks ((loc + step) % 2 ^ 64) (count - step) (crc32Update crc chunk)

def crc32VolumeRange (m : Media V) (volume : V) (loc count : Nat) (crc : UInt32) : Option UInt32 :=
  crc32Chunks m volume ((count + 511) / 512) loc count crc

def gptMaxArraySize : Nat := 1024 * 1024

/-- The checksum of the header, whose extent is the one it names. -/
def headerCrc (m : Media V) (volume : V) (header : GptTableHeader) (headerLba lbSize : Nat) : Option UInt32 := do
  let headerLoc ← checkedMul headerLba lbSize
  let crc := crc32Update 0xffffffff header.zeroed
  if header.headerSize > sizeofGptTableHeader then do
    let tail ← checkedAdd headerLoc sizeofGptTableHeader
    crc32VolumeRange m volume tail (header.headerSize - sizeofGptTableHeader) crc
  else some crc

/-- What a header has to say of its entry array: `array_end`. -/
def arrayEnd (header : GptTableHeader) (headerLba lbSize arraySize : Nat) : Option Nat := do
  let arrayLba := header.partitionEntryLba
  let arrayBlocks := (arraySize + lbSize - 1) / lbSize
  let arrayEnd ← checkedAdd arrayLba arrayBlocks
  if header.firstUsableLba > header.lastUsableLba then none
  else if arrayLba < header.firstUsableLba then
    if arrayEnd > header.firstUsableLba then none else some arrayEnd
  else if arrayLba ≤ header.lastUsableLba ∨ arrayEnd > headerLba then none
  else some arrayEnd

/-- The checks up to the array, which is where the budget goes; the array's place and size. -/
def gptVerifyFields (m : Media V) (volume : V) (header : GptTableHeader) (headerLba lbSize budget : Nat) :
    Option (Nat × Nat) :=
  if header.signature ≠ efiPart then none
  else if header.revision ≠ 0x00010000 then none
  else if header.headerSize < sizeofGptTableHeader ∨ header.headerSize > lbSize then none
  else if header.myLba ≠ headerLba then none
  else do
    let crc ← headerCrc m volume header headerLba lbSize
    if (~~~crc).toNat ≠ header.crc32 then none
    else
      let entrySize := header.sizeOfPartitionEntry
      if entrySize < sizeofGptEntry ∨ entrySize &&& (entrySize - 1) ≠ 0 then none
      else do
        let arraySize ← checkedMul header.numberOfPartitionEntries entrySize
        if arraySize = 0 then none
        else if arraySize > gptMaxArraySize ∨ arraySize > budget then none
        else do
          let arrayEnd ← arrayEnd header headerLba lbSize arraySize
          let sectCount := (m.geometry volume).sectCount
          if sectCount ≠ noSectCount ∧ arrayEnd > sectCount / (lbSize / 512) then none
          else do
            let arrayLoc ← checkedMul header.partitionEntryLba lbSize
            return (arrayLoc, arraySize)

/-- Whether the header verifies, and the budget after that. -/
def gptVerifyHeader (m : Media V) (volume : V) (header : GptTableHeader) (headerLba lbSize budget : Nat) :
    Bool × Nat :=
  match gptVerifyFields m volume header headerLba lbSize budget with
  | none => (false, budget)
  | some (arrayLoc, arraySize) =>
    match crc32VolumeRange m volume arrayLoc arraySize 0xffffffff with
    | none => (false, budget - arraySize)
    | some crc => ((~~~crc).toNat = header.partitionEntryArrayCrc32, budget - arraySize)

/-! ## The search -/

/-- A header with the LBA it is at and the block size that LBA is in. -/
structure Located where
  header : GptTableHeader
  lba : Nat
  lbSize : Nat
deriving DecidableEq, Repr

/-- The header at an LBA, if there is one that verifies. -/
def gptTryHeader (m : Media V) (volume : V) (lba lbSize loc budget : Nat) : Option Located × Nat :=
  match m.volumeRead volume loc sizeofGptTableHeader with
  | none => (none, budget)
  | some header =>
    let (ok, budget) := gptVerifyHeader m volume header lba lbSize budget
    (if ok then some { header := header, lba := lba, lbSize := lbSize } else none, budget)

/-- `candidates`, the claim of the primary being the first of `claimed`. -/
def gptCandidates (volume : Geometry) (guess : Nat) (claimed : List Nat) : List Nat :=
  if volume.sectCount ≠ noSectCount ∧ guess ≥ 512 then
    let blocks := volume.sectCount / (guess / 512)
    if blocks ≥ 2 then (blocks - 1) :: claimed.filter (· ≠ blocks - 1) else claimed
  else claimed

/-- The alternate a primary names that does not verify. -/
def gptClaimed (m : Media V) (volume : V) (guess : Nat) : List Nat :=
  match m.volumeRead volume guess sizeofGptTableHeader with
  | none => []
  | some (header : GptTableHeader) =>
    if header.signature = efiPart ∧ header.alternateLba > 1 then [header.alternateLba] else []

def gptTryCandidates (m : Media V) (volume : V) (guess : Nat) : List Nat → Nat → Option Located × Nat
  | [], budget => (none, budget)
  | candidate :: candidates, budget =>
    match checkedMul candidate guess with
    | none => gptTryCandidates m volume guess candidates budget
    | some loc =>
      match gptTryHeader m volume candidate guess loc budget with
      | (some found, budget) => (some found, budget)
      | (none, budget) => gptTryCandidates m volume guess candidates budget

def gptTryGuesses (m : Media V) (volume : V) : List Nat → Nat → Option Located
  | [], _ => none
  | guess :: guesses, budget =>
    match gptTryHeader m volume 1 guess guess budget with
    | (some found, _) => some found
    | (none, budget) =>
      let candidates := gptCandidates (m.geometry volume) guess (gptClaimed m volume guess)
      match gptTryCandidates m volume guess candidates budget with
      | (some found, _) => some found
      | (none, budget) => gptTryGuesses m volume guesses budget

/-- `lb_guesses` -/
def lbGuesses : List Nat := [512, 2048, 4096]

def gptProtectiveMbr (m : Media V) (volume : V) : Bool :=
  let types := (List.range 4).map fun i => m.volumeRead volume (0x1be + 16 * i + 4) 1
  match types.dropWhile fun type => type.isSome && type ≠ some [0xee] with
  | [] => false
  | type :: _ => type.isSome

/-! ## The memos -/

/-- `gpt_memo_none_volume` with its block, `none` where that could not be read. -/
structure NoneMemo (V : Type) where
  volume : V
  block : Option GptTableHeader

/-- `gpt_memo_volume` with what was found there. -/
structure GptMemo (V : Type) where
  volume : V
  located : Located

structure GptMemos (V : Type) where
  found : Option (GptMemo V)
  none : Option (NoneMemo V)

variable [DecidableEq V]

def gptMemoHit (m : Media V) (memos : GptMemos V) (volume : V) : Option Located :=
  match memos.found with
  | .none => .none
  | some memo =>
    if memo.volume ≠ volume then .none
    else
      match checkedMul memo.located.lba memo.located.lbSize with
      | .none => .none
      | some loc =>
        if m.volumeRead volume loc sizeofGptTableHeader = some memo.located.header then some memo.located
        else .none

def gptMemoNoneHit (m : Media V) (memos : GptMemos V) (volume : V) : Bool :=
  match memos.none with
  | .none => false
  | some memo => memo.volume = volume && m.volumeRead volume 512 sizeofGptTableHeader = memo.block

def gptLocateHeader (m : Media V) (memos : GptMemos V) (volume : V) : Option Located × GptMemos V :=
  match gptMemoHit m memos volume with
  | some located => (some located, memos)
  | .none =>
    if gptMemoNoneHit m memos volume then (.none, memos)
    else if !gptProtectiveMbr m volume then (.none, memos)
    else
      match gptTryGuesses m volume lbGuesses (gptMaxArraySize * 2) with
      | some located => (some located, { memos with found := some { volume := volume, located := located } })
      | .none =>
        let block := m.volumeRead volume 512 sizeofGptTableHeader
        (.none, { memos with none := some { volume := volume, block := block } })

/-! ## What callers ask -/

def gptGetGuid (m : Media V) (memos : GptMemos V) (volume : V) : Option (List UInt8) × GptMemos V :=
  let (located, memos) := gptLocateHeader m memos volume
  (located.map (·.header.diskGuid), memos)

/-- What a partition gets besides what it takes over from its volume. -/
structure Partition where
  partition : Nat
  firstSect : Nat
  sectCount : Nat
  partGuid : Option (List UInt8)
  partTypeGuid : Option (List UInt8)
deriving DecidableEq, Repr

/-- The result codes; 0 comes with a partition. -/
inductive PartResult
  | found (part : Partition)
  | noPartition
  | invalidTable
  | endOfTable
deriving DecidableEq, Repr

def maxGptPartitions : Nat := 256

/-- The entry's partition, in units of 512 bytes. -/
def gptEntryPart (volume : Geometry) (partition lbSize : Nat) (entry : GptEntry) : PartResult :=
  if entry.partitionTypeGuid = List.replicate 16 0 then .noPartition
  else if entry.endingLba < entry.startingLba then .noPartition
  else
    match checkedMul entry.startingLba (lbSize / 512) with
    | none => .noPartition
    | some firstSect =>
      if entry.endingLba - entry.startingLba = 2 ^ 64 - 1 then .noPartition
      else
        match checkedMul (entry.endingLba - entry.startingLba + 1) (lbSize / 512) with
        | none => .noPartition
        | some sectCount =>
          if !partitionRangeValid volume firstSect sectCount then .noPartition
          else .found
            { partition := partition + 1, firstSect := firstSect, sectCount := sectCount
              partGuid := some entry.uniquePartitionGuid, partTypeGuid := some entry.partitionTypeGuid }

/-- The rest of `gpt_get_part`, with a header located. -/
def gptReadPart (m : Media V) (volume : V) (partition : Nat) (located : Located) : PartResult :=
  let header := located.header
  if partition ≥ min header.numberOfPartitionEntries maxGptPartitions then .endOfTable
  else if header.sizeOfPartitionEntry < sizeofGptEntry then .invalidTable
  else
    match checkedMul header.partitionEntryLba located.lbSize with
    | none => .invalidTable
    | some entryOffset =>
      match checkedAdd entryOffset (partition * header.sizeOfPartitionEntry) with
      | none => .invalidTable
      | some entryOffset =>
        match m.volumeRead volume entryOffset sizeofGptEntry with
        | none => .endOfTable
        | some entry => gptEntryPart (m.geometry volume) partition located.lbSize entry

def gptGetPart (m : Media V) (memos : GptMemos V) (volume : V) (partition : Nat) : PartResult × GptMemos V :=
  match gptLocateHeader m memos volume with
  | (.none, memos) => (.invalidTable, memos)
  | (some located, memos) => (gptReadPart m volume partition located, memos)

end Limine.Part
