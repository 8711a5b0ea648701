import Limine.Fat32.Context
import Limine.Fs.Names
import Limine.Menu.Entry

/-!
# Opening and reading a file

`fat32_open_in` looks a name up in a directory, by the long names that precede an entry and by its short
one; `fat32_open` takes the components of a path one after the other.  A file that is too long for its
chain is not opened, an empty one needs none.
-/

namespace Limine.Fat32
open Limine.Fs (Volume cString strcmpEq strcasecmpEq strncmpEq toupper)
open Limine.Lib (Traced)
open Limine.Loader (checkedMul)
open Limine.Menu (CString)
open Limine.Part (field)

/-! ## Directory entries -/

def attributeSubdirectory : UInt8 := 0x10
def lfnAttribute : UInt8 := 0x0f
def attributeVollabel : UInt8 := 0x08

/-- `struct fat32_directory_entry`, without what is not looked at. -/
structure DirectoryEntry where
  fileNameAndExt : List UInt8
  attributes : UInt8
  clusterNumHigh : Nat
  clusterNumLow : Nat
  fileSizeBytes : Nat
deriving DecidableEq, Repr

def entryBytes (directoryEntries : List UInt8) (i : Nat) : List UInt8 :=
  (directoryEntries.drop (i * sizeofDirectoryEntry)).take sizeofDirectoryEntry

def DirectoryEntry.ofBytes (bytes : List UInt8) : DirectoryEntry where
  fileNameAndExt := bytes.take 11
  attributes := bytes.getD 11 0
  clusterNumHigh := field bytes 20 2
  clusterNumLow := field bytes 26 2
  fileSizeBytes := field bytes 28 4

/-- The first cluster an entry names. -/
def DirectoryEntry.firstCluster (context : Context) (entry : DirectoryEntry) : Nat :=
  if context.type = .fat32 then entry.clusterNumLow ||| entry.clusterNumHigh <<< 16 else entry.clusterNumLow

def fat32LfnMaxEntries : Nat := 20
def fat32LfnMaxFilenameLength : Nat := fat32LfnMaxEntries * 13 + 1

/-- `struct fat32_lfn_entry`, as its bytes. -/
abbrev LfnEntry := List UInt8

namespace LfnEntry
variable (lfn : LfnEntry)

def sequenceNumber : UInt8 := lfn.getD 0 0
def name1 : List UInt8 := (lfn.drop 1).take 10
def dosChecksum : UInt8 := lfn.getD 13 0
def name2 : List UInt8 := (lfn.drop 14).take 12
def name3 : List UInt8 := (lfn.drop 28).take 4

end LfnEntry

def lfnChecksum (sfn : List UInt8) : UInt8 :=
  sfn.foldl (fun sum c => (if sum &&& 1 ≠ 0 then (0x80 : UInt8) else 0) + (sum >>> 1) + c) 0

/-- `fat32_lfncpy`: the low bytes of `size` characters. -/
def lfncpy (destination : List UInt8) (destOffset : Nat) (source : List UInt8) (size : Nat) : List UInt8 :=
  (List.range size).foldl (fun dest i => dest.set (destOffset + i) (source.getD (i * 2) 0)) destination

/-- The loop of `fat32_filename_to_8_3`, at the place `j` of what it fills. -/
def filenameTo83From : CString → List UInt8 → Nat → Bool → Option (List UInt8)
  | [], dest, _, _ => some dest
  | c :: src, dest, j, ext =>
    if c = 46 then if ext then none else filenameTo83From src dest 8 true
    else if j ≥ 8 + 3 ∨ (j ≥ 8 ∧ !ext) then none
    else filenameTo83From src (dest.set j (toupper c)) (j + 1) ext

def filenameTo83 (src : CString) : Option (List UInt8) :=
  filenameTo83From src (List.replicate (8 + 3) 32) 0 false

/-- The long name as far as it has been collected, and which of its entries comes next. -/
structure Lfn where
  current : List UInt8
  expected : Nat
  checksum : UInt8

def Lfn.empty : Lfn := ⟨List.replicate fat32LfnMaxFilenameLength 0, 0, 0⟩

def Lfn.invalidate (lfn : Lfn) : Lfn := { lfn with expected := 0 }

/-- The end of a long name is where its trailing spaces start. -/
def Lfn.trimmed (lfn : Lfn) : List UInt8 :=
  lfn.current.set ((lfn.current.take (fat32LfnMaxFilenameLength - 1)).reverse.dropWhile (· = 32)).length 0

/-- A long name entry: the state behind it, and whether it was the last one of a whole name. -/
def Lfn.take (lfn : Lfn) (entry : LfnEntry) : Lfn × Bool :=
  let seqNum := (entry.sequenceNumber &&& 0x1f).toNat
  let lfn := if entry.sequenceNumber &&& 0x40 ≠ 0 then
      { current := List.replicate fat32LfnMaxFilenameLength 32, expected := seqNum, checksum := entry.dosChecksum }
    else lfn
  if seqNum = 0 ∨ seqNum ≠ lfn.expected ∨ entry.dosChecksum ≠ lfn.checksum then (lfn.invalidate, false)
  else
    let lfn := { lfn with expected := lfn.expected - 1 }
    let lfnIndex := (seqNum - 1) * 13
    if lfnIndex ≥ fat32LfnMaxEntries * 13 then (lfn.invalidate, false)
    else
      let current := lfncpy lfn.current lfnIndex entry.name1 5
      let current := lfncpy current (lfnIndex + 5) entry.name2 6
      let current := lfncpy current (lfnIndex + 11) entry.name3 2
      let lfn := { lfn with current }
      if seqNum ≠ 1 then (lfn, false) else ({ lfn with current := lfn.trimmed }, true)

/-- Whether the entry a long name precedes is the one it was made for. -/
def sfnMatches (sfnEntry : DirectoryEntry) (lfn : Lfn) : Bool :=
  !(sfnEntry.fileNameAndExt.getD 0 0 = 0x00 || sfnEntry.fileNameAndExt.getD 0 0 = 0xe5 ||
    sfnEntry.attributes = lfnAttribute || lfnChecksum sfnEntry.fileNameAndExt ≠ lfn.checksum)

/-- The loop over the entries of a directory, `total` of them, `left` from the one numbered `i` on. -/
def findIn (caseInsensitiveFopen : Bool) (directoryEntries : List UInt8) (total : Nat) (name : CString) :
    Nat → Nat → Lfn → Option DirectoryEntry
  | 0, _, _ => none
  | left + 1, i, lfn =>
    let bytes := entryBytes directoryEntries i
    let entry := DirectoryEntry.ofBytes bytes
    if entry.fileNameAndExt.getD 0 0 = 0x00 then none
    else if entry.attributes = lfnAttribute then
      if entry.fileNameAndExt.getD 0 0 = 0xe5 then
        findIn caseInsensitiveFopen directoryEntries total name left (i + 1) lfn.invalidate
      else
        let (lfn, whole) := lfn.take bytes
        if !whole then findIn caseInsensitiveFopen directoryEntries total name left (i + 1) lfn
        else if if caseInsensitiveFopen then strcasecmpEq lfn.current name else strcmpEq lfn.current name then
          if i + 1 ≥ total then
            findIn caseInsensitiveFopen directoryEntries total name left (i + 1) lfn.invalidate
          else
            let sfnEntry := DirectoryEntry.ofBytes (entryBytes directoryEntries (i + 1))
            if sfnMatches sfnEntry lfn then some sfnEntry
            else findIn caseInsensitiveFopen directoryEntries total name left (i + 1) lfn.invalidate
        else -- an entry of a long name is a volume label to what looks at short names
          findIn caseInsensitiveFopen directoryEntries total name left (i + 1) lfn
    else if entry.attributes &&& attributeVollabel ≠ 0 then
      findIn caseInsensitiveFopen directoryEntries total name left (i + 1) lfn
    else
      match filenameTo83 name with
      | none => findIn caseInsensitiveFopen directoryEntries total name left (i + 1) lfn
      | some fn =>
        if strncmpEq entry.fileNameAndExt fn (8 + 3) then some entry
        else findIn caseInsensitiveFopen directoryEntries total name left (i + 1) lfn

def maxDirectorySize : Nat := 256 * 1024 * 1024

/-- The directory in memory; without an entry, the root directory of FAT12 and FAT16. -/
def loadDirectory (part : Volume) (context : Context) : Option DirectoryEntry → Run (List UInt8)
  | some directory => do
    let clusterChain ← cacheClusterChain part context (directory.firstCluster context)
    match checkedMul clusterChain.length context.blockSize with
    | none => null
    | some allocSize =>
      if allocSize > maxDirectorySize then null
      else readClusterChain part context clusterChain 0 allocSize
  | none =>
    let rootBytes := context.rootEntries * sizeofDirectoryEntry
    let dirChainLen := (rootBytes + (context.blockSize - 1)) / context.blockSize
    match checkedMul dirChainLen context.blockSize with
    | none => null
    | some allocSize =>
      if allocSize > maxDirectorySize then null
      else do
        let bytes ← volumeRead part .rootDirectory (context.rootStart * context.bytesPerSector) rootBytes
        pure (bytes ++ List.replicate (allocSize - rootBytes) 0)

/-- `fat32_open_in` with a name. -/
def openIn (caseInsensitiveFopen : Bool) (part : Volume) (context : Context) (directory : Option DirectoryEntry)
    (name : CString) : Run DirectoryEntry := do
  let directoryEntries ← loadDirectory part context directory
  let total := directoryEntries.length / sizeofDirectoryEntry
  match findIn caseInsensitiveFopen directoryEntries total name total 0 .empty with
  | none => null
  | some file => pure file

/-! ## Files -/

/-- `struct file_handle` with the `struct fat32_file_handle` it points to; the chain of a file that has
none is empty. -/
structure FileHandle where
  context : Context
  firstCluster : Nat
  sizeBytes : Nat
  clusterChain : List Nat
deriving DecidableEq, Repr

/-- The end of `fat32_open`, at the entry of the file. -/
def openEntry (part : Volume) (context : Context) (currentFile : DirectoryEntry) : Run FileHandle := do
  let firstCluster := currentFile.firstCluster context
  let chain ← (cacheClusterChain part context firstCluster).attempt Halt.isNull
  let clusterChain := chain.getD []
  if currentFile.fileSizeBytes > clusterChain.length * context.blockSize then null
  else pure { context, firstCluster, sizeBytes := currentFile.fileSizeBytes, clusterChain }

def slash : UInt8 := 47

/-- The components of a path, empty ones among them. -/
def components : CString → List CString
  | [] => [[]]
  | c :: path =>
    if c = slash then [] :: components path
    else
      match components path with
      | [] => [[c]]
      | part :: parts => (c :: part) :: parts

/-- Where FAT12 and FAT16 have their root directory, or the entry FAT32 would have for it. -/
def rootDirectory (context : Context) : Option DirectoryEntry :=
  match context.type with
  | .fat12 | .fat16 => none
  | .fat32 =>
    some ⟨[], 0, context.rootDirectoryCluster >>> 16, context.rootDirectoryCluster &&& 0xffff, 0⟩

/-- The walk down the directory tree, `currentIndex` being where the component starts in the path. -/
def openPath (caseInsensitiveFopen : Bool) (part : Volume) (context : Context) :
    List CString → Nat → Option DirectoryEntry → Run FileHandle
  | [], _, _ => null
  | currentPart :: parts, currentIndex, currentDirectory =>
    if currentPart.length ≥ fat32LfnMaxFilenameLength - 1 then null
    else if currentIndex + currentPart.length ≥ 2 ^ 32 then null
    else if parts ≠ [] ∧ currentIndex + (currentPart.length + 1) ≥ 2 ^ 32 then null
    else do
      let currentFile ← openIn caseInsensitiveFopen part context currentDirectory currentPart
      if parts = [] then openEntry part context currentFile
      else if currentFile.attributes &&& attributeSubdirectory = 0 then null
      else openPath caseInsensitiveFopen part context parts (currentIndex + (currentPart.length + 1)) (some currentFile)

/-- `fat32_open` -/
def openFile (caseInsensitiveFopen : Bool) (part : Volume) (path : CString) : Run FileHandle := do
  let context ← initContext part
  let path := cString path
  let rest := path.dropWhile (· = slash)
  openPath caseInsensitiveFopen part context (components rest) (path.length - rest.length) (rootDirectory context)

/-- `fat32_read`: the buffer and the count it returns. -/
def read (part : Volume) (f : FileHandle) (loc count : Nat) : Run (List UInt8 × Nat) := do
  match ← (readClusterChain part f.context f.clusterChain loc count).attempt Halt.isNull with
  | none => Traced.fail (.stop (.panic "fat32: cluster chain read failed (corrupted filesystem?)"))
  | some buf => pure (buf, count)

end Limine.Fat32
