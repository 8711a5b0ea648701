import Limine.Iso9660.Directory
import Limine.Menu.Entry

/-!
# Opening and reading a file

`iso9660_open` keeps the root directory of each volume it has seen, walks a path down from it and
collects the extents of the record it ends at, in one pass that counts and one that fills.
-/

namespace Limine.Iso9660
open Limine.Part (field)
open Limine.Fs (Volume cString strcmpEq)
open Limine.Menu (CString)

variable {V : Type}

def iso9660FirstVolumeDescriptor : Nat := 0x10
def iso9660MaxVolumeDescriptors : Nat := 256
def iso9660MaxDirSize : Nat := 64 * 1024 * 1024
def iso9660MaxExtentCount : Nat := 65536
def rockRidgeMaxFilename : Nat := 255

/-- `"CD001"` -/
def cd001 : List UInt8 := [67, 68, 48, 48, 49]

/-! ## The primary descriptor and the root directory -/

/-- `struct iso9660_primary_volume`, as its bytes. -/
abbrev PrimaryVolume := List UInt8

namespace PrimaryVolume
variable (desc : PrimaryVolume)

def type : Nat := field desc 0 1
def identifier : List UInt8 := (desc.drop 1).take 5
def version : Nat := field desc 6 1
def rootExtent : Nat := field desc (156 + 2) 4
def rootExtentSize : Nat := field desc (156 + 10) 4

end PrimaryVolume

/-- The descriptors from `lba` on. -/
def findPVDFrom (vol : Volume) : Nat → Nat → Option PrimaryVolume
  | 0, _ => none
  | descriptors + 1, lba => do
    let desc ← vol.volumeRead (lba * iso9660SectorSize) iso9660SectorSize
    if PrimaryVolume.identifier desc ≠ cd001 then none
    else if PrimaryVolume.type desc = 1 then if PrimaryVolume.version desc = 1 then some desc else none
    else if PrimaryVolume.type desc = 255 then none
    else findPVDFrom vol descriptors (lba + 1)

def findPVD (vol : Volume) : Option PrimaryVolume :=
  findPVDFrom vol iso9660MaxVolumeDescriptors iso9660FirstVolumeDescriptor

def dirSizeValid (size : Nat) : Bool :=
  !(size = 0 || size > iso9660MaxDirSize || size % iso9660SectorSize ≠ 0)

def cacheRoot (vol : Volume) : Option (List UInt8) := do
  let pv ← findPVD vol
  let rootSize := PrimaryVolume.rootExtentSize pv
  if !dirSizeValid rootSize then none
  else vol.volumeRead (PrimaryVolume.rootExtent pv * iso9660SectorSize) rootSize

/-- The list `contexts`: the volumes seen so far, each with its root directory. -/
abbrev Contexts (V : Type) := List (V × List UInt8)

def getContext [DecidableEq V] (vols : V → Volume) (contexts : Contexts V) (vol : V) :
    Option (List UInt8) × Contexts V :=
  match contexts.lookup vol with
  | some root => (some root, contexts)
  | none =>
    match cacheRoot (vols vol) with
    | none => (none, contexts)
    | some root => (some root, (vol, root) :: contexts)

/-! ## The path -/

def slash : UInt8 := 47

/-- The walk down a path, one of its components a round; the record it ends at. -/
def walk (caseInsensitiveFopen : Bool) (vol : Volume) :
    Nat → List UInt8 → CString → Exec (Option DirectoryEntry)
  | 0, _, _ => .error .outOfFuel
  | fuel + 1, current, path =>
    let path := path.dropWhile (· = slash)
    if path = [] then .ok none
    else
      let filename := path.takeWhile (· ≠ slash)
      let path := path.dropWhile (· ≠ slash)
      if filename.length ≥ rockRidgeMaxFilename then
        .error (.panic "iso9660: Path component exceeds maximum length")
      else do
        match ← find caseInsensitiveFopen current filename with
        | none => .ok none
        | some entry =>
          if path = [] then .ok (some entry)
          else if !entry.isDirectory then .ok none
          else if !dirSizeValid entry.extentSize then .ok none
          else
            match vol.volumeRead (entry.extent * iso9660SectorSize) entry.extentSize with
            | none => .ok none
            | some current => walk caseInsensitiveFopen vol fuel current path.tail

/-! ## The extents -/

/-- `struct iso9660_extent` -/
structure Extent where
  lba : Nat
  size : Nat
deriving DecidableEq, Repr

def extentOf (e : DirectoryEntry) : Extent := ⟨e.extent, e.extentSize⟩

/-- The first pass: how many extents there are and their size. -/
def countExtents (baseName : List UInt8) : Nat → DirectoryEntry → Nat → Nat → Exec (Nat × Nat)
  | 0, _, _, _ => .error .outOfFuel
  | fuel + 1, e, extentCount, totalSize =>
    if !e.isMultiExtent then .ok (extentCount, totalSize)
    else
      match nextEntry e with
      | none => .ok (extentCount, totalSize)
      | some next => do
        let (nextName, _) ← loadName nameLimit next
        if cString baseName = [] ∨ !strcmpEq baseName nextName then .ok (extentCount, totalSize)
        else
          let extentCount := extentCount + 1
          let totalSize := totalSize + next.extentSize
          if extentCount ≥ iso9660MaxExtentCount then .ok (extentCount, totalSize)
          else countExtents baseName fuel next extentCount totalSize

/-- The second pass, over the zeroed array of `count` extents. -/
def fillExtents : Nat → DirectoryEntry → List Extent
  | 0, _ => []
  | count + 1, e =>
    extentOf e ::
      if count = 0 then []
      else
        match nextEntry e with
        | none => List.replicate count ⟨0, 0⟩
        | some next => fillExtents count next

def collectExtents (entry : DirectoryEntry) : Exec (List Extent × Nat) := do
  let (baseName, _) ← loadName nameLimit entry
  let (extentCount, totalSize) ← countExtents baseName iso9660MaxExtentCount entry 1 entry.extentSize
  .ok (fillExtents extentCount entry, totalSize)

/-- `struct file_handle` with the `struct iso9660_file_handle` it points to. -/
structure FileHandle (V : Type) where
  vol : V
  extents : List Extent
  size : Nat
deriving DecidableEq, Repr

/-- `iso9660_open` -/
def openFile [DecidableEq V] (caseInsensitiveFopen : Bool) (vols : V → Volume) (contexts : Contexts V)
    (vol : V) (path : CString) : Exec (Option (FileHandle V) × Contexts V) :=
  match (vols vol).volumeRead (iso9660FirstVolumeDescriptor * iso9660SectorSize + 1) 5 with
  | none => .ok (none, contexts)
  | some buf =>
    if !strcmpEq buf cd001 then .ok (none, contexts)
    else
      match getContext vols contexts vol with
      | (none, contexts) => .ok (none, contexts)
      | (some root, contexts) => do
        let path := cString path
        match ← walk caseInsensitiveFopen (vols vol) (path.length + 1) root path with
        | none => .ok (none, contexts)
        | some entry => do
          let (extents, totalSize) ← collectExtents entry
          .ok (some ⟨vol, extents, totalSize⟩, contexts)

/-! ## Reading -/

/-- The loop over the extents: what it read, and how much is still wanted. -/
def readExtents (vol : Volume) : List Extent → Nat → Nat → Nat → Exec (List UInt8 × Nat)
  | [], _, _, count => .ok ([], count)
  | extent :: extents, extentStart, loc, count =>
    if count = 0 then .ok ([], 0)
    else
      let extentEnd := extentStart + extent.size
      if loc < extentEnd then
        let offsetInExtent := if loc > extentStart then loc - extentStart else 0
        let bytesAvailable := extent.size - offsetInExtent
        let toRead := if count < bytesAvailable then count else bytesAvailable
        match vol.volumeRead (extent.lba * iso9660SectorSize + offsetInExtent) toRead with
        | none => .error (.panic "iso9660: failed to read file data")
        | some bytes => do
          let (rest, left) ← readExtents vol extents extentEnd (loc + toRead) (count - toRead)
          .ok (bytes ++ rest, left)
      else readExtents vol extents extentEnd loc count

/-- `iso9660_read`: the buffer and the count it returns. -/
def read (vols : V → Volume) (handle : FileHandle V) (loc count : Nat) : Exec (List UInt8 × Nat) := do
  let (buf, left) ← readExtents (vols handle.vol) handle.extents 0 loc count
  if left > 0 then .error (.panic "iso9660: read beyond end of file") else .ok (buf, count)

end Limine.Iso9660
