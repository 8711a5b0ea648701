import Limine.Fs.Names
import Limine.Fs.Volume

/-!
# Directory records

A record is a place in the buffer its directory was read to.  Its name is the Rock Ridge one, put
together from `NM` entries behind the plain name, or else the plain one without its version.
-/

namespace Limine.Iso9660
open Limine.Fs (cString strcmpEq strcasecmpEq)
open Limine.Part (field)

def iso9660SectorSize : Nat := 2048

def iso9660FlagDirectory : Nat := 0x02
def iso9660FlagMultiExtent : Nat := 0x80

/-- A pointer to a `struct iso9660_directory_entry`; the buffer starts a page. -/
structure DirectoryEntry where
  buffer : List UInt8
  off : Nat
deriving DecidableEq, Repr

def sizeofDirectoryEntry : Nat := 33

namespace DirectoryEntry
variable (entry : DirectoryEntry)

def length : Nat := field entry.buffer entry.off 1
def extent : Nat := field entry.buffer (entry.off + 2) 4
def extentSize : Nat := field entry.buffer (entry.off + 10) 4
def flags : Nat := field entry.buffer (entry.off + 25) 1
def filenameSize : Nat := field entry.buffer (entry.off + 32) 1

/-- `n` bytes of the record from number `start` on. -/
def bytes (start n : Nat) : List UInt8 := (entry.buffer.drop (entry.off + start)).take n

def isMultiExtent : Bool := entry.flags &&& iso9660FlagMultiExtent ≠ 0
def isDirectory : Bool := entry.flags &&& iso9660FlagDirectory ≠ 0

end DirectoryEntry

/-! ## Names -/

def nameLimit : Nat := 256

def filenameSizeExceeded : Stop := .panic "iso9660: Filename size exceeded"

/-- The walk over the system use area; the name as far as it is known and whether there was an `NM`. -/
def nmName (limit : Nat) : Nat → List UInt8 → List UInt8 → Bool → Exec (List UInt8 × Bool)
  | 0, _, _, _ => .error .outOfFuel
  | fuel + 1, sysarea, buf, foundNm =>
    let entryLen := (sysarea.getD 2 0).toNat
    if sysarea.length < 4 ∨ sysarea.getD 3 0 ≠ 1 then .ok (buf, foundNm)
    else if entryLen > sysarea.length ∨ entryLen = 0 then .ok (buf, foundNm)
    else if sysarea.getD 0 0 = 78 ∧ sysarea.getD 1 0 = 77 ∧ entryLen ≥ 5 then
      let fragLen := entryLen - 5
      if buf.length + fragLen ≥ limit then .error filenameSizeExceeded
      else
        let buf := buf ++ (sysarea.drop 5).take fragLen
        if sysarea.getD 4 0 &&& 1 = 0 then .ok (buf, true)
        else nmName limit fuel (sysarea.drop entryLen) buf true
    else nmName limit fuel (sysarea.drop entryLen) buf foundNm

/-- The plain name up to its version, or to the dot before it. -/
def upToVersion : List UInt8 → List UInt8
  | [] => []
  | c :: rest =>
    if c = 59 then []
    else if c = 46 ∧ rest.head? = some 59 then []
    else c :: upToVersion rest

/-- `use_iso_name` -/
def useIsoName (limit : Nat) (entry : DirectoryEntry) : Exec (List UInt8 × Bool) :=
  if entry.filenameSize ≥ limit then .error filenameSizeExceeded
  else
    let nameLen := if entry.length < sizeofDirectoryEntry + entry.filenameSize then
        entry.length - sizeofDirectoryEntry
      else entry.filenameSize
    .ok (upToVersion (entry.bytes sizeofDirectoryEntry nameLen), false)

/-- The system use area, where there is one: the plain name is padded to an even length. -/
def systemUseArea (entry : DirectoryEntry) : Option (List UInt8) :=
  let start := sizeofDirectoryEntry + entry.filenameSize
  if entry.length < start then none
  else if entry.filenameSize % 2 = 0 then
    if entry.length - start = 0 then none
    else some (entry.bytes (start + 1) (entry.length - start - 1))
  else some (entry.bytes start (entry.length - start))

/-- The name and whether it is a Rock Ridge one. -/
def loadName (limit : Nat) (entry : DirectoryEntry) : Exec (List UInt8 × Bool) :=
  match systemUseArea entry with
  | none => useIsoName limit entry
  | some sysarea => do
    let (buf, foundNm) ← nmName limit (sysarea.length + 1) sysarea [] false
    if foundNm then .ok (buf, true) else useIsoName limit entry

/-! ## Walking a directory -/

/-- `iso9660_next_entry` -/
def nextEntry (current : DirectoryEntry) : Option DirectoryEntry :=
  let bufferEnd := current.buffer.length
  if current.length = 0 then do
    let nextSector ← alignUp (current.off + 1) iso9660SectorSize
    if nextSector ≥ bufferEnd then none
    else
      let entry : DirectoryEntry := { current with off := nextSector }
      if entry.length = 0 then none else some entry
  else
    let next := current.off + current.length
    if next ≥ bufferEnd then none
    else do
      let entry : DirectoryEntry := { current with off := next }
      let entry ← if entry.length = 0 then do
          let nextSector ← alignUp (next + 1) iso9660SectorSize
          if nextSector ≥ bufferEnd then none
          else
            let entry : DirectoryEntry := { current with off := nextSector }
            if entry.length = 0 then none else some entry
        else some entry
      if entry.length < sizeofDirectoryEntry then none
      else if entry.length > bufferEnd - entry.off then none
      else some entry

/-- `iso9660_find`; `size` bytes are left from `off` on. -/
def findFrom (caseInsensitiveFopen : Bool) (buffer filename : List UInt8) :
    Nat → Nat → Nat → Exec (Option DirectoryEntry)
  | 0, _, _ => .error .outOfFuel
  | fuel + 1, off, size =>
    let entry : DirectoryEntry := ⟨buffer, off⟩
    if size = 0 then .ok none
    else if entry.length = 0 then
      if size ≤ iso9660SectorSize then .ok none
      else
        let aligned := alignDown size iso9660SectorSize
        if size = aligned then
          findFrom caseInsensitiveFopen buffer filename fuel (off + iso9660SectorSize) (size - iso9660SectorSize)
        else findFrom caseInsensitiveFopen buffer filename fuel (off + (size - aligned)) aligned
    else if entry.length > size then .ok none
    else if entry.length < sizeofDirectoryEntry then .ok none
    else do
      let (entryFilename, rr) ← loadName nameLimit entry
      if rr && !caseInsensitiveFopen then
        if strcmpEq filename entryFilename then .ok (some entry)
        else findFrom caseInsensitiveFopen buffer filename fuel (off + entry.length) (size - entry.length)
      else if strcasecmpEq filename entryFilename then .ok (some entry)
      else findFrom caseInsensitiveFopen buffer filename fuel (off + entry.length) (size - entry.length)

def find (caseInsensitiveFopen : Bool) (buffer filename : List UInt8) : Exec (Option DirectoryEntry) :=
  findFrom caseInsensitiveFopen buffer filename (buffer.length + 1) 0 buffer.length

/-! ## What the walk finds -/

/-- A record that can be read whole. -/
def DirectoryEntry.Whole (entry : DirectoryEntry) : Prop :=
  sizeofDirectoryEntry ≤ entry.length ∧ entry.off + entry.length ≤ entry.buffer.length

/-- `n` comes immediately behind `e`: where `e` ends or, where padding ends the sector there, at the
start of the next sector. -/
def Follows (e n : DirectoryEntry) : Prop :=
  n.buffer = e.buffer ∧ n.Whole ∧
    (n.off = e.off + e.length ∨
      DirectoryEntry.length { e with off := e.off + e.length } = 0 ∧
        n.off = ((e.off + e.length) / iso9660SectorSize + 1) * iso9660SectorSize)

end Limine.Iso9660
