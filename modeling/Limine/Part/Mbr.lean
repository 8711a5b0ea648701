import Limine.Part.Gpt

/-!
# MBR partitions

The first four partitions are in the table itself.  The others are logical: an extended partition holds
a chain of EBRs, each with data entries and a link to the next.  The walk along the chain is resumed
from where the last one stopped.

    extended partition: EBR → EBR → EBR
    logical               0     1     2, 3
-/

namespace Limine.Part
open Limine.Lib
open Limine.Loader (checkedMul)

variable {V : Type}

/-- `struct mbr_part` -/
structure MbrPart where
  type : UInt8
  firstSect : Nat
  sectCount : Nat
deriving DecidableEq, Repr

def sizeofMbrEntry : Nat := 16

def MbrPart.isExtended (entry : MbrPart) : Bool := entry.type = 0x0f || entry.type = 0x05 || entry.type = 0x85

/-- The entry at `offset` of a volume on the device of `dev`. -/
def mbrReadEntry (m : Media V) (dev : V) (volume : Geometry) (offset : Nat) : Option MbrPart := do
  let entry ← m.read dev volume offset sizeofMbrEntry
  let mult := if volume.isOptical then 1 else volume.sectorSize / 512
  return { type := entry.getD 4 0, firstSect := field entry 8 4 * mult, sectCount := field entry 12 4 * mult }

/-- A read of `is_valid_mbr`, and what it must not be or has to be. -/
def readsSo (m : Media V) (volume : V) (loc count : Nat) (ok : List UInt8 → Bool) : Bool :=
  match m.volumeRead volume loc count with
  | none => false
  | some bytes => ok bytes

def isValidMbr (m : Media V) (volume : V) : Bool :=
  readsSo m volume 510 2 (· = [0x55, 0xaa]) &&
  readsSo m volume 446 1 (fun hint => hint = [0x00] || hint = [0x80]) &&
  readsSo m volume 462 1 (fun hint => hint = [0x00] || hint = [0x80]) &&
  readsSo m volume 478 1 (fun hint => hint = [0x00] || hint = [0x80]) &&
  readsSo m volume 494 1 (fun hint => hint = [0x00] || hint = [0x80]) &&
  -- "NTFS"
  readsSo m volume 3 4 (· ≠ [78, 84, 70, 83]) &&
  -- "FAT"
  readsSo m volume 54 3 (· ≠ [70, 65, 84]) &&
  readsSo m volume 82 3 (· ≠ [70, 65, 84]) &&
  -- "FAT32"
  readsSo m volume 3 5 (· ≠ [70, 65, 84, 51, 50]) &&
  readsSo m volume 1080 2 (· ≠ [0x53, 0xef])

/-! ## Logical partitions -/

def maxLogicalPartitions : Nat := 256

/-- Where a walk along the chain is: the EBR it comes to, the extent of the link to it, and how many
logical partitions come before. -/
structure EbrWalk where
  index : Nat
  sector : Nat
  size : Nat
deriving DecidableEq, Repr

/-- `ebr_part`, with the memo of its walk. -/
structure EbrPart where
  geometry : Geometry
  walk : EbrWalk
deriving DecidableEq, Repr

/-- The head EBR may describe the whole extended partition. -/
def ebrHead (extendedPart : Geometry) : EbrWalk := { index := 0, sector := 0, size := extendedPart.sectCount }

/-- The first sector of an entry that lies in the extended partition and in its volume. -/
def mbrLogicalEntryContained (extendedPart backing : Geometry) (ebrSector : Nat) (entry : MbrPart) : Option Nat := do
  let relFirst ← checkedAdd ebrSector entry.firstSect
  if !partitionRangeValid extendedPart relFirst entry.sectCount then none
  else do
    let firstSect ← checkedAdd extendedPart.firstSect relFirst
    if !partitionRangeValid backing firstSect entry.sectCount then none else some firstSect

/-- How the four entries of an EBR leave the walk. -/
inductive EbrScan
  /-- with the result of the call -/
  | stop (result : PartResult)
  /-- with a count and the link to the next EBR, if there is one -/
  | next (accepted : Nat) (link : Option (Nat × Nat))
deriving DecidableEq, Repr

section
variable (m : Media V) (dev : V) (extendedPart : Geometry)

/-- The loop over the entries `slots` of the EBR at `walk`. -/
def scanEntries (walk : EbrWalk) (partition : Nat) : List Nat → Nat → Option (Nat × Nat) → EbrScan
  | [], accepted, link => .next accepted link
  | i :: slots, accepted, link =>
    match mbrReadEntry m dev extendedPart (walk.sector * 512 + 0x1be + sizeofMbrEntry * i) with
    | none => .stop .endOfTable
    | some entry =>
      if entry.isExtended then
        if link.isNone && entry.sectCount ≠ 0 then
          scanEntries walk partition slots accepted (some (entry.firstSect, entry.sectCount))
        else scanEntries walk partition slots accepted link
      else if entry.sectCount = 0 then scanEntries walk partition slots accepted link
      else
        let contained := mbrLogicalEntryContained extendedPart (m.geometry dev) walk.sector entry
        let withinLink := decide (entry.firstSect + entry.sectCount ≤ walk.size)
        if i ≥ 2 && (contained.isNone || !withinLink) then scanEntries walk partition slots accepted link
        else if accepted = partition then
          match contained with
          | none => .stop .noPartition
          | some firstSect =>
            .stop (.found
              { partition := partition + 5, firstSect := firstSect, sectCount := entry.sectCount
                partGuid := none, partTypeGuid := none })
        else scanEntries walk partition slots (accepted + 1) link

def ebrSigned (walk : EbrWalk) : Bool :=
  m.read dev extendedPart (walk.sector * 512 + 510) 2 = some [0x55, 0xaa]

/-- The link may lead on: it does not go back, and it stays inside. -/
def linkOk (walk : EbrWalk) (link : Nat × Nat) : Bool :=
  !(link.1 = 0 || link.1 ≤ walk.sector) && link.1 < extendedPart.sectCount

/-- The loop along the chain; with the result the memo as it is then. -/
def walkEbrs (partition : Nat) : Nat → EbrWalk → EbrWalk → PartResult × EbrWalk
  | 0, _, memo => (.endOfTable, memo)
  | links + 1, walk, _ =>
    if !ebrSigned m dev extendedPart walk then (.endOfTable, walk)
    else
      match scanEntries m dev extendedPart walk partition [0, 1, 2, 3] walk.index none with
      | .stop result => (result, walk)
      | .next _ none => (.endOfTable, walk)
      | .next accepted (some link) =>
        if linkOk extendedPart walk link then
          walkEbrs partition links { index := accepted, sector := link.1, size := link.2 } walk
        else (.endOfTable, walk)

end

def mbrGetLogicalPart (m : Media V) (dev : V) (extendedPart : EbrPart) (partition : Nat) :
    PartResult × EbrPart :=
  if partition ≥ maxLogicalPartitions then (.endOfTable, extendedPart)
  else
    let start := if extendedPart.walk.index ≤ partition then extendedPart.walk else ebrHead extendedPart.geometry
    let (result, walk) :=
      walkEbrs m dev extendedPart.geometry partition maxLogicalPartitions start extendedPart.walk
    (result, { extendedPart with walk := walk })

/-- The first entry that is an extended partition. -/
def findExtended (m : Media V) (volume : V) : Option Geometry :=
  (List.range 4).findSome? fun i => do
    let geometry := m.geometry volume
    let entry ← mbrReadEntry m volume geometry (0x1be + sizeofMbrEntry * i)
    if !entry.isExtended then none
    else if entry.sectCount = 0 then none
    else if !partitionRangeValid geometry entry.firstSect entry.sectCount then none
    else some { geometry with firstSect := entry.firstSect, sectCount := entry.sectCount }

/-- One of the four in the table. -/
def mbrGetPrimary (m : Media V) (volume : V) (partition : Nat) : PartResult :=
  match mbrReadEntry m volume (m.geometry volume) (0x1be + sizeofMbrEntry * partition) with
  | none => .endOfTable
  | some entry =>
    if entry.type = 0 then .noPartition
    else if entry.sectCount = 0 then .noPartition
    else if !partitionRangeValid (m.geometry volume) entry.firstSect entry.sectCount then .noPartition
    else .found
      { partition := partition + 1, firstSect := entry.firstSect, sectCount := entry.sectCount
        partGuid := none, partTypeGuid := none }

/-! ## Both tables -/

/-- All that is kept from one call to the next. -/
structure Memos (V : Type) where
  gpt : GptMemos V
  ebrPart : V → Option EbrPart

def Memos.empty : Memos V := { gpt := { found := none, none := none }, ebrPart := fun _ => none }

variable [DecidableEq V]

def Memos.setEbrPart (memos : Memos V) (volume : V) (extendedPart : EbrPart) : Memos V :=
  { memos with ebrPart := fun v => if v = volume then some extendedPart else memos.ebrPart v }

def mbrGetPart (m : Media V) (memos : Memos V) (volume : V) (partition : Nat) : PartResult × Memos V :=
  if !isValidMbr m volume then (.invalidTable, memos)
  else if partition > 3 then
    let extendedPart := (memos.ebrPart volume).or
      ((findExtended m volume).map fun geometry => { geometry := geometry, walk := ebrHead geometry })
    match extendedPart with
    | none => (.endOfTable, memos)
    | some extendedPart =>
      let (result, extendedPart) := mbrGetLogicalPart m volume extendedPart (partition - 4)
      (result, memos.setEbrPart volume extendedPart)
  else (mbrGetPrimary m volume partition, memos)

def partGet (m : Media V) (memos : Memos V) (volume : V) (partition : Int) : PartResult × Memos V :=
  if partition < 0 then (.noPartition, memos)
  else
    let (result, gpt) := gptGetPart m memos.gpt volume partition.toNat
    let memos := { memos with gpt := gpt }
    if result ≠ .invalidTable then (result, memos)
    else mbrGetPart m memos volume partition.toNat

/-- What a caller may ask of any volume. -/
inductive Call (V : Type)
  | gptGetGuid (volume : V)
  | partGet (volume : V) (partition : Int)

inductive Answer
  | guid (guid : Option (List UInt8))
  | part (result : PartResult)
deriving DecidableEq, Repr

def Call.run (m : Media V) (memos : Memos V) : Call V → Answer × Memos V
  | .gptGetGuid volume =>
    let (guid, gpt) := Part.gptGetGuid m memos.gpt volume
    (.guid guid, { memos with gpt := gpt })
  | .partGet volume partition =>
    let (result, memos) := Part.partGet m memos volume partition
    (.part result, memos)

/-- The answers to some calls, one after the other. -/
def runCalls (m : Media V) : Memos V → List (Call V) → List Answer
  | _, [] => []
  | memos, call :: calls =>
    let (answer, memos) := call.run m memos
    answer :: runCalls m memos calls

end Limine.Part
