import Limine.Elf.Section
import Limine.Lib.Scan

/-!
# The requests of an executable

`limine_load` goes over the loaded image twice by the eight bytes: once for the tag with the base
revision, into which it writes its answer, and once for the requests.  Executables of revision 0 may
have the requests' addresses in a section instead.

    image: ··· start marker ··· tag ··· request ··· end marker ···
-/

namespace Limine.Protos
open Limine.Loader Limine.Lib Limine.Elf

def supportedBaseRevision : Nat := 6
def maxRequests : Nat := 128

def sizeofStartMarker : Nat := 32
def sizeofEndMarker : Nat := 16
def sizeofBaseRevision : Nat := 24
/-- `sizeof(uint64_t[4])` -/
def sizeofId : Nat := 32

/-- The constants of the protocol's header: two markers, what a tag of a base revision starts with and
what every request's ID starts with.  No word stands for two things or looks like a revision. -/
structure Markers where
  requestsStart : List Nat
  requestsEnd : List Nat
  baseRevision : List Nat
  commonMagic : List Nat
  start_length : requestsStart.length = 4
  end_length : requestsEnd.length = 2
  revision_length : baseRevision.length = 2
  magic_length : commonMagic.length = 2
  nodup : (requestsStart ++ requestsEnd ++ baseRevision ++ commonMagic).Nodup
  large : ∀ w ∈ requestsStart ++ requestsEnd ++ baseRevision ++ commonMagic, supportedBaseRevision < w

/-- The image up to its BSS, at `physical_base`.  It is in memory, from a page on, and no offset into
it comes near the end of a `size_t`. -/
structure LoadedImage extends Region where
  virtualBase : Nat
  page : 4096 ∣ base

/-! ## The pass over the image -/

/-- `p[0] == words[0] && p[1] == words[1] && ...` -/
def equalWords (r : Region) (m : Bytes) : Nat → List Nat → Load Bool
  | _, [] => .ok true
  | p, w :: ws => do
    let v ← loadNat r m p 8
    if v = w then equalWords r m (p + 8) ws else return false

/-- A test that bounds itself. -/
def hits (img : LoadedImage) (m : Bytes) (i size : Nat) (words : List Nat) : Load Bool :=
  if i + size ≤ img.size then equalWords img.toRegion m (img.base + i) words else .ok false

/-- The loop both scans are, from offset `i` on: a start marker sets the state back, an end marker is
the end. -/
def scanImageFrom {σ : Type} (mk : Markers) (img : LoadedImage) (m : Bytes) (init : σ)
    (body : σ → Nat → Load σ) : Nat → Nat → σ → Load σ
  | 0, _, _ => .error .outOfFuel
  | fuel + 1, i, s =>
    if i + sizeofEndMarker ≤ img.size then do
      if ← hits img m i sizeofStartMarker mk.requestsStart then
        scanImageFrom mk img m init body fuel (i + 8) init
      else if ← hits img m i sizeofEndMarker mk.requestsEnd then return s
      else do
        let s ← body s i
        scanImageFrom mk img m init body fuel (i + 8) s
    else .ok s

def scanImage {σ : Type} (mk : Markers) (img : LoadedImage) (m : Bytes) (init : σ)
    (body : σ → Nat → Load σ) : Load σ :=
  scanImageFrom mk img m init body (img.size + 1) 0 init

/-! ## The base revision -/

structure BaseRevision where
  baseRevision : Nat := 0
  found : Bool := false
  p1 : Option Nat := none
  p2 : Option Nat := none
deriving DecidableEq, Repr

def baseRevisionStep (mk : Markers) (img : LoadedImage) (m : Bytes) (s : BaseRevision) (i : Nat) :
    Load BaseRevision := do
  if ← hits img m i sizeofBaseRevision mk.baseRevision then
    panicIf s.found "limine: Duplicated base revision tag"
    let revision ← loadNat img.toRegion m (img.base + i + 16) 8
    if revision ≤ supportedBaseRevision then
      return { baseRevision := revision, found := true, p1 := some (img.base + i + 8),
               p2 := some (img.base + i + 16) }
    else
      return { baseRevision := supportedBaseRevision, found := true, p1 := some (img.base + i + 8),
               p2 := s.p2 }
  else return s

/-- `if (ptr != NULL) *ptr = v;` -/
def storeThrough (img : LoadedImage) (m : Bytes) (ptr : Option Nat) (v : Nat) : Load Bytes :=
  match ptr with
  | some p => storeNat img.toRegion m p 8 v
  | none => .ok m

/-- The base revision, and the image with the answer in it. -/
def determineBaseRevision (arch : Arch) (mk : Markers) (img : LoadedImage) (m : Bytes) :
    Load (Bytes × Nat) := do
  let s ← scanImage mk img m {} (baseRevisionStep mk img m)
  let m ← storeThrough img m s.p1 s.baseRevision
  let m ← storeThrough img m s.p2 0
  panicIf (arch == .aarch64 && s.baseRevision < 6)
    "limine: Base revision %u is no longer supported for aarch64 (minimum: 6)"
  return (m, s.baseRevision)

/-! ## The requests -/

def LoadedImage.requestsTop (img : LoadedImage) : Nat := add64 img.base img.size

/-- `_get_request`, of the requests from some point on. -/
def getRequest (img : LoadedImage) (m : Bytes) (id : Fin 4 → Nat) (size : Nat) :
    List Nat → Load (Option Nat)
  | [] => .ok none
  | p :: requests => do
    let v ← loadNat img.toRegion m (p + 16) 8
    if v ≠ id 2 then getRequest img m id size requests
    else do
      let v ← loadNat img.toRegion m (p + 24) 8
      if v ≠ id 3 then getRequest img m id size requests
      else if add64 p size > img.requestsTop then getRequest img m id size requests
      else return some p

/-- The request at `p` answers to the ID and fits. -/
def LoadedImage.answers (img : LoadedImage) (m : Bytes) (id : Fin 4 → Nat) (size p : Nat) : Bool :=
  leAt m (p + 16) 8 = id 2 && leAt m (p + 24) 8 = id 3 && add64 p size ≤ img.requestsTop

/-- The words at `p` as an ID. -/
def loadId (img : LoadedImage) (m : Bytes) (p : Nat) : Load (Fin 4 → Nat) :=
  if img.Has p sizeofId then .ok fun j => leAt m (p + 8 * j) 8 else .error .imageBounds

/-- `requests[requests_count++] = p` -/
def pushRequest (requests : List Nat) (p : Nat) : Load (List Nat) :=
  if requests.length < maxRequests then .ok (requests ++ [p]) else .error .tableBounds

def collectStep (mk : Markers) (img : LoadedImage) (m : Bytes) (requests : List Nat) (i : Nat) :
    Load (List Nat) := do
  if ← hits img m i sizeofId mk.commonMagic then
    panicIf (requests.length == maxRequests) "limine: Maximum requests exceeded"
    let id ← loadId img m (img.base + i)
    let found ← getRequest img m id sizeofId requests
    panicIf found.isSome "limine: Conflict detected for request ID %X %X"
    pushRequest requests (img.base + i)
  else return requests

/-- The entries of the section from `i` on, `n` more before there are too many. -/
def collectSectionFrom (img : LoadedImage) (buffer : Region) (copy : Bytes) :
    Nat → Nat → List Nat → Load (List Nat)
  | 0, _, _ => Loader.panic "limine: Maximum requests exceeded"
  | n + 1, i, requests => do
    let entry ← loadNat buffer copy (buffer.base + 8 * i) 8
    if entry = 0 then return requests
    else do
      let reqsOff := sub64 entry img.virtualBase
      panicIf (entry < img.virtualBase || reqsOff ≥ img.size || img.size - reqsOff < sizeofId)
        "limine: .limine_reqs entry outside kernel image"
      panicIf (reqsOff % 8 != 0) "limine: .limine_reqs entry is not 8-byte aligned"
      let requests ← pushRequest requests (add64 reqsOff img.base)
      collectSectionFrom img buffer copy n (i + 1) requests

def collectSection (img : LoadedImage) (buffer : Region) (copy : Bytes) : Load (List Nat) :=
  collectSectionFrom img buffer copy maxRequests 0 []

/-- `".limine_reqs"` -/
def limineReqsName : List UInt8 := [0x2e, 0x6c, 0x69, 0x6d, 0x69, 0x6e, 0x65, 0x5f, 0x72, 0x65, 0x71, 0x73]

/-- The copy of `.limine_reqs`, which counts for an ELF file of base revision 0 only. -/
def limineReqs (arch : Arch) (alloc : Allocator) (elf : Option File) (slide baseRevision : Nat) :
    Load (Option (Region × Bytes)) :=
  match elf with
  | some f => if baseRevision = 0 then elf64LoadSection arch alloc f limineReqsName slide else .ok none
  | none => .ok none

def collectRequests (mk : Markers) (img : LoadedImage) (m : Bytes) (section_ : Option (Region × Bytes)) :
    Load (List Nat) :=
  match section_ with
  | some (buffer, copy) => collectSection img buffer copy
  | none => scanImage mk img m [] (collectStep mk img m)

/-- What is known of an image after the requests are loaded. -/
structure Discovered where
  image : Bytes
  baseRevision : Nat
  requests : List Nat

/-- `elf` is the executable's file where it is an ELF file. -/
def discoverRequests (arch : Arch) (alloc : Allocator) (mk : Markers) (img : LoadedImage) (m : Bytes)
    (elf : Option File) (slide : Nat) : Load Discovered := do
  let (m, baseRevision) ← determineBaseRevision arch mk img m
  extMemAllocCounted alloc 2 maxRequests 8
  let section_ ← limineReqs arch alloc elf slide baseRevision
  let requests ← collectRequests mk img m section_
  return { image := m, baseRevision := baseRevision, requests := requests }

end Limine.Protos
