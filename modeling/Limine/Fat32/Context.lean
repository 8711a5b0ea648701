import Limine.Fs.Volume
import Limine.Lib.Traced

/-!
# The table and its chains

What `fat32_init_context` takes from the boot sector, the entries of the table at their three widths,
and the chain of a file: counted by one pass, which gives up where it would leave the volume or go round
in a circle, and filled in by another.  Each read says which part of the file system it is of.
-/

namespace Limine.Fat32
open Limine.Fs (Volume)
open Limine.Lib (Traced)
open Limine.Loader (checkedMul)
open Limine.Part (field noSectCount)

/-! ## Reads -/

inductive Region
  | bootSector
  | fat
  | rootDirectory
  | data
deriving DecidableEq, Repr

structure Access where
  region : Region
  loc : Nat
  count : Nat
deriving DecidableEq, Repr

/-- A call that gives `NULL`, a negative number or `false`, or one that does not return. -/
inductive Halt
  | null
  | stop (s : Stop)
deriving DecidableEq, Repr

def Halt.isNull : Halt → Bool
  | .null => true
  | .stop _ => false

abbrev Run := Traced Access Halt

def null {α : Type} : Run α := Traced.fail .null

def volumeRead (part : Volume) (region : Region) (loc count : Nat) : Run (List UInt8) :=
  Traced.access ⟨region, loc, count⟩
    (match part.volumeRead loc count with
    | some bytes => .ok bytes
    | none => .error .null)

/-! ## The boot sector -/

/-- `struct fat32_bpb`, as its bytes. -/
abbrev Bpb := List UInt8

def sizeofBpb : Nat := 512

namespace Bpb
variable (bpb : Bpb)

def bytesPerSector : Nat := field bpb 11 2
def sectorsPerCluster : Nat := field bpb 13 1
def reservedSectors : Nat := field bpb 14 2
def fatsCount : Nat := field bpb 16 1
def rootEntriesCount : Nat := field bpb 17 2
def sectorsCount16 : Nat := field bpb 19 2
def sectorsPerFat16 : Nat := field bpb 22 2
def hiddenSectorsCount : Nat := field bpb 28 4
def sectorsCount32 : Nat := field bpb 32 4
def sectorsPerFat32 : Nat := field bpb 36 4
def rootDirectoryCluster : Nat := field bpb 44 4

/-- `"FAT"` where FAT12 and FAT16 have it or where FAT32 has it, or `"FAT32"` in the name of the system
that made it. -/
def signatureValid : Bool :=
  (bpb.drop 0x36).take 3 = [70, 65, 84] || (bpb.drop 0x52).take 3 = [70, 65, 84] ||
    (bpb.drop 0x03).take 5 = [70, 65, 84, 51, 50]

def rootDirSects : Nat := (bpb.rootEntriesCount * 32 + (bpb.bytesPerSector - 1)) / bpb.bytesPerSector

def totalSects : Nat := if bpb.sectorsCount16 ≠ 0 then bpb.sectorsCount16 else bpb.sectorsCount32

def metadataSects : Nat :=
  let sectorsPerFat := if bpb.sectorsPerFat16 ≠ 0 then bpb.sectorsPerFat16 else bpb.sectorsPerFat32
  bpb.reservedSectors + bpb.fatsCount * sectorsPerFat + bpb.rootDirSects

end Bpb

inductive FatType
  | fat12
  | fat16
  | fat32
deriving DecidableEq, Repr

/-- `struct fat32_context`; the volume is an argument of what uses it. -/
structure Context where
  type : FatType
  bytesPerSector : Nat
  sectorsPerCluster : Nat
  reservedSectors : Nat
  numberOfFats : Nat
  hiddenSectors : Nat
  sectorsPerFat : Nat
  fatStartLba : Nat
  dataStartLba : Nat
  rootDirectoryCluster : Nat
  rootEntries : Nat
  rootStart : Nat
  rootSize : Nat
deriving DecidableEq, Repr

def sectorPerClusterValidValues : List Nat := [1, 2, 4, 8, 16, 32, 64, 128]
def bytesPerSectorValidValues : List Nat := [512, 1024, 2048, 4096]

def sizeofDirectoryEntry : Nat := 32

def fatTypeOf (clustersCount : Nat) : FatType :=
  if clustersCount < 4085 then .fat12 else if clustersCount < 65525 then .fat16 else .fat32

/-- `CHECKED_ADD` on `uint32_t` -/
def checkedAdd32 (a b : Nat) : Option Nat := if a + b < 2 ^ 32 then some (a + b) else none

def Bpb.sectorsPerFat (bpb : Bpb) (type : FatType) : Nat :=
  if type = .fat32 then bpb.sectorsPerFat32 else bpb.sectorsPerFat16

/-- `data_start_lba`: behind the root directory where that is not in clusters itself. -/
def dataStart (type : FatType) (rootStart rootSize : Nat) : Option Nat :=
  match type with
  | .fat12 | .fat16 => checkedAdd32 rootStart rootSize
  | .fat32 => some rootStart

/-- The part of `fat32_init_context` behind its read. -/
def contextOf (bpb : Bpb) : Option Context :=
  if !bpb.signatureValid then none
  else if bpb.sectorsPerCluster ∉ sectorPerClusterValidValues then none
  else if bpb.bytesPerSector ∉ bytesPerSectorValidValues then none
  else if bpb.fatsCount = 0 ∨ bpb.fatsCount > 4 then none
  else if bpb.reservedSectors = 0 then none
  else if bpb.metadataSects ≥ bpb.totalSects then none
  else
    let dataSects := bpb.totalSects - bpb.metadataSects
    let type := fatTypeOf (dataSects / bpb.sectorsPerCluster)
    let sectorsPerFat := bpb.sectorsPerFat type
    if sectorsPerFat = 0 then none
    else if type ≠ .fat32 ∧ bpb.rootEntriesCount = 0 then none
    else
      let rootStart := bpb.reservedSectors + bpb.fatsCount * sectorsPerFat
      if rootStart > 2 ^ 32 - 1 then none
      else do
        let rootSize := (bpb.rootEntriesCount * sizeofDirectoryEntry + (bpb.bytesPerSector - 1)) / bpb.bytesPerSector
        let dataStartLba ← dataStart type rootStart rootSize
        some
          { type
            bytesPerSector := bpb.bytesPerSector
            sectorsPerCluster := bpb.sectorsPerCluster
            reservedSectors := bpb.reservedSectors
            numberOfFats := bpb.fatsCount
            hiddenSectors := bpb.hiddenSectorsCount
            sectorsPerFat
            fatStartLba := bpb.reservedSectors
            dataStartLba
            rootDirectoryCluster := bpb.rootDirectoryCluster
            rootEntries := bpb.rootEntriesCount
            rootStart
            rootSize }

/-- `fat32_init_context` -/
def initContext (part : Volume) : Run Context := do
  let bpb ← volumeRead part .bootSector 0 sizeofBpb
  match contextOf bpb with
  | none => null
  | some context => pure context

/-! ## The entries of the table -/

namespace Context
variable (context : Context)

def fatBase : Nat := context.fatStartLba * context.bytesPerSector
def fatSize : Nat := context.sectorsPerFat * context.bytesPerSector
def blockSize : Nat := context.sectorsPerCluster * context.bytesPerSector

def clusterLimit : Nat :=
  match context.type with
  | .fat12 => 0xfef
  | .fat16 => 0xffef
  | .fat32 => 0xfffffef

/-- Where the entry of a cluster is in the table, and how many bytes are read for it. -/
def entryOffset (cluster : Nat) : Nat :=
  match context.type with
  | .fat12 => cluster + cluster / 2
  | .fat16 => cluster * 2
  | .fat32 => cluster * 4

def entryWidth : Nat :=
  match context.type with
  | .fat12 | .fat16 => 2
  | .fat32 => 4

/-- The entry, from the bytes read for it. -/
def unpackEntry (cluster : Nat) (bytes : List UInt8) : Nat :=
  let value := Lib.leNat bytes
  match context.type with
  | .fat12 => if cluster % 2 = 0 then value &&& 0xfff else value >>> 4
  | .fat16 => value
  | .fat32 => value &&& 0x0fffffff

end Context

def readClusterFromMap (part : Volume) (context : Context) (cluster : Nat) : Run Nat :=
  let offset := context.entryOffset cluster
  if offset + context.entryWidth > context.fatSize then null
  else do
    let bytes ← volumeRead part .fat (context.fatBase + offset) context.entryWidth
    pure (context.unpackEntry cluster bytes)

/-! ## Chains -/

/-- `FAT32_MAX_CHAIN_LENGTH` -/
def fat32MaxChainLength : Nat := 64 * 1024 * 1024 / 4

def fatEntries (context : Context) : Nat :=
  match context.type with
  | .fat12 => context.fatSize * 2 / 3
  | .fat16 => context.fatSize / 2
  | .fat32 => context.fatSize / 4

def maxClusters (context : Context) : Nat :=
  let maxClusters := context.clusterLimit - 1
  let maxClusters := if maxClusters > fat32MaxChainLength then fat32MaxChainLength else maxClusters
  if fatEntries context < maxClusters then fatEntries context else maxClusters

/-- The clusters the volume has room for; `none` where its size cannot be told. -/
def readableClusterLimit (part : Volume) (context : Context) : Option Nat :=
  if part.sectCount = noSectCount then some context.clusterLimit
  else do
    let volumeSectors := (← checkedMul part.sectCount 512) / context.bytesPerSector
    let dataClusters := if volumeSectors > context.dataStartLba then
        (volumeSectors - context.dataStartLba) / context.sectorsPerCluster
      else 0
    some (if dataClusters + 1 < context.clusterLimit then dataClusters + 1 else context.clusterLimit)

/-- The first pass: how long the chain is, with at most `left` clusters more. -/
def countChain (part : Volume) (context : Context) (readableLimit : Nat) : Nat → Nat → Nat → Run Nat
  | 0, _, _ => null
  | left + 1, chainLength, cluster =>
    if cluster > readableLimit then null
    else do
      let cluster ← readClusterFromMap part context cluster
      if cluster < 2 ∨ cluster > context.clusterLimit then pure chainLength
      else countChain part context readableLimit left (chainLength + 1) cluster

/-- The second pass. -/
def fillChain (part : Volume) (context : Context) : Nat → Nat → Run (List Nat)
  | 0, _ => pure []
  | left + 1, cluster => do
    let next ← readClusterFromMap part context cluster
    let rest ← fillChain part context left next
    pure (cluster :: rest)

def cacheClusterChain (part : Volume) (context : Context) (initialCluster : Nat) : Run (List Nat) :=
  if initialCluster < 2 ∨ initialCluster > context.clusterLimit then null
  else
    match readableClusterLimit part context with
    | none => null
    | some readableLimit => do
      let chainLength ← countChain part context readableLimit (maxClusters context) 1 initialCluster
      fillChain part context chainLength initialCluster

/-- Where the data of a cluster starts. -/
def clusterBase (context : Context) (cluster : Nat) : Nat :=
  (context.dataStartLba + (cluster - 2) * context.sectorsPerCluster) * context.bytesPerSector

/-- The loop of `read_cluster_chain`, with `loc` and `count` at what is left. -/
def readClusters (part : Volume) (context : Context) (clusterChain : List Nat) :
    Nat → Nat → Nat → Run (List UInt8)
  | 0, _, _ => Traced.fail (.stop .outOfFuel)
  | fuel + 1, loc, count =>
    if count = 0 then pure []
    else
      match clusterChain[loc / context.blockSize]? with
      | none => null
      | some cluster =>
        if cluster < 2 then null
        else do
          let offset := loc % context.blockSize
          let chunk := if count > context.blockSize - offset then context.blockSize - offset else count
          let bytes ← volumeRead part .data (clusterBase context cluster + offset) chunk
          let rest ← readClusters part context clusterChain fuel (loc + chunk) (count - chunk)
          pure (bytes ++ rest)

def readClusterChain (part : Volume) (context : Context) (clusterChain : List Nat) (loc count : Nat) :
    Run (List UInt8) :=
  readClusters part context clusterChain (count + 1) loc count

end Limine.Fat32
