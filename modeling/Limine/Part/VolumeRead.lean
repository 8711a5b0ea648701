import Limine.Loader.Memory

/-!
# Reading a volume

`volume_read` reads any range of bytes through a cache of one block of `fastest_xfer_size`
sectors.  Which transfers fail is not up to the loader: `Env.transfer` holds the outcome of
each, in the order they are made.
-/

namespace Limine.Part

open Limine.Loader (checkedMul checkedMul_eq_some_iff)

/-- How a call ends without a result. -/
inductive Halt
  | panic (msg : String)
  /-- a division by zero, which traps -/
  | divideError
deriving DecidableEq, Repr

inductive CacheStatus
  | notReady
  | ready
deriving DecidableEq, Repr

/-- `disk_read_sectors` fills the buffer from the device, or fails and leaves anything there. -/
inductive Transfer
  | success
  | failure (left : Nat → UInt8)

structure Env where
  /-- width of `size_t` -/
  sizeBits : Nat
  /-- the device, byte by byte -/
  device : Nat → UInt8
  /-- whether `ext_mem_alloc` finds that many bytes; it panics otherwise -/
  canAlloc : Nat → Bool
  transfer : Nat → Transfer
  canAlloc_lt : ∀ n, canAlloc n = true → n < 2 ^ sizeBits

structure Volume where
  fastestXferSize : UInt64
  pxe : Bool
  sectorSize : Int
  /-- it is an `int` -/
  sectorSize_lt : sectorSize < 0x80000000
  cacheStatus : CacheStatus
  /-- `NULL` until the first block is read -/
  cache : Option (Nat → UInt8)
  cachedBlock : Nat
  firstSect : UInt64
  sectCount : UInt64

structure State where
  volume : Volume
  /-- transfers made so far -/
  time : Nat

/-- `(uint64_t)-1` -/
def unknownCount : UInt64 := UInt64.ofNat (2 ^ 64 - 1)

/-- `sector_size / 512`, once `volume_read` has checked the sector size. -/
def Volume.sectorUnits (v : Volume) : Nat := v.sectorSize.toNat / 512

def State.setStatus (s : State) (status : CacheStatus) : State :=
  { s with volume := { s.volume with cacheStatus := status } }

def State.setCache (s : State) (cache : Nat → UInt8) : State :=
  { s with volume := { s.volume with cache := some cache } }

def State.setBlock (s : State) (block : Nat) : State :=
  { s with volume := { s.volume with cachedBlock := block } }

def State.tick (s : State) : State := { s with time := s.time + 1 }

/-- `DIV_ROUNDUP`; `none` is its `onerror`. -/
def divRoundup (a b : Nat) : Option Nat := (checkedAdd a (b - 1)).map fun y => y / b

/-- The cache, allocated at the first call. -/
def allocCache (e : Env) (s : State) : Except Halt (State × (Nat → UInt8)) :=
  match s.volume.cache with
  | some cache => .ok (s, cache)
  | none =>
    match checkedMul s.volume.fastestXferSize.toNat s.volume.sectorSize.toNat with
    | none => .error (.panic "cache_block: block size overflow")
    | some size =>
      if e.canAlloc size then .ok (s.setCache fun _ => 0, fun _ => 0)
      else .error (.panic "High memory allocator: Out of memory")

/-- `xfer_size`, clamped to what is left of the volume; `none` where `cache_block` gives up. -/
def clampXfer (v : Volume) (firstSect readSector : Nat) : Option Nat :=
  if v.sectCount = unknownCount then some v.fastestXferSize.toNat
  else
    (divRoundup v.sectCount.toNat v.sectorUnits).bind fun volumeSectors =>
      let endSector := (checkedAdd firstSect volumeSectors).getD (2 ^ 64 - 1)
      if readSector ≥ endSector then none
      else some (min v.fastestXferSize.toNat (endSector - readSector))

/-- `disk_read_sectors` into the cache: what the cache holds then, and whether it succeeded. -/
def diskReadSectors (e : Env) (s : State) (cache : Nat → UInt8) (block count : Nat) :
    Bool × (Nat → UInt8) :=
  match e.transfer s.time with
  | .failure left => (false, left)
  | .success =>
    let bytes := s.volume.sectorSize.toNat
    (true, fun k => if k < count * bytes then e.device (block * bytes + k) else cache k)

/-- Where `cache_block` starts to read and how much; `none` where it gives up before. -/
def blockTransfer (v : Volume) (block : Nat) : Option (Nat × Nat) :=
  if v.firstSect.toNat % v.sectorUnits ≠ 0 then none
  else
    let firstSect := v.firstSect.toNat / v.sectorUnits
    (checkedMul block v.fastestXferSize.toNat).bind fun blockOffset =>
      (checkedAdd firstSect blockOffset).bind fun readSector =>
        (clampXfer v firstSect readSector).map fun xferSize => (readSector, xferSize)

def cacheBlock (e : Env) (s : State) (block : Nat) : Except Halt (Bool × State) :=
  if s.volume.cacheStatus = .ready ∧ block = s.volume.cachedBlock then .ok (true, s)
  else do
    let (s, cache) ← allocCache e (s.setStatus .notReady)
    match blockTransfer s.volume block with
    | none => .ok (false, s)
    | some (readSector, xferSize) =>
      match diskReadSectors e s cache readSector xferSize with
      | (false, cache) => .ok (false, (s.setCache cache).tick)
      | (true, cache) => .ok (true, (((s.setCache cache).tick).setStatus .ready).setBlock block)

/-- `block_size`, a product of `size_t`s. -/
def blockSize (e : Env) (v : Volume) : Nat :=
  v.fastestXferSize.toNat * v.sectorSize.toNat % 2 ^ e.sizeBits

/-- `memcpy` out of the cache. -/
def Volume.copyOut (v : Volume) (offset chunk : Nat) : List UInt8 :=
  (List.range chunk).map fun k => (v.cache.getD fun _ => 0) (offset + k)

/-- The loop of `volume_read`; `buffer` is the `progress` bytes read so far. -/
def readLoop (e : Env) (loc count : Nat) :
    Nat → State → List UInt8 → Except Halt (Bool × State × List UInt8)
  | 0, s, buffer => .ok (true, s, buffer)
  | fuel + 1, s, buffer =>
    if buffer.length < count then
      let size := blockSize e s.volume
      let address := (loc + buffer.length) % 2 ^ 64
      if size = 0 then .error .divideError
      else do
        match ← cacheBlock e s (address / size) with
        | (false, s) => .ok (false, s, buffer)
        | (true, s) =>
          let offset := address % size
          let chunk := min (count - buffer.length) (size - offset)
          readLoop e loc count fuel s (buffer ++ s.volume.copyOut offset chunk)
    else .ok (true, s, buffer)

/-- Whether `volume_read` turns the range down. -/
def outOfRange (v : Volume) (loc count : Nat) : Bool :=
  if v.sectCount = unknownCount then false
  else
    match checkedMul v.sectCount.toNat 512 with
    | none => true
    | some partSize => decide (loc ≥ partSize) || decide (count > partSize - loc)

def volumeRead (e : Env) (s : State) (loc count : UInt64) :
    Except Halt (Bool × State × List UInt8) :=
  if s.volume.pxe then .error (.panic "Attempted volume_read() on pxe")
  else if s.volume.fastestXferSize = 0 ∨ s.volume.sectorSize < 512 ∨ s.volume.sectorSize % 512 ≠ 0 then
    .ok (false, s, [])
  else if outOfRange s.volume loc.toNat count.toNat then .ok (false, s, [])
  else readLoop e loc.toNat count.toNat count.toNat s []

end Limine.Part
