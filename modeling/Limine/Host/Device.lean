import Limine.Lib.UndoLog
import Limine.Lib.Bytes

/-!
# The device of the host tool

`bios-install` reads and writes the device through a cache of one block and keeps what each
write replaced in `uninstall_data`.  The static variables of `limine.c` are one state.  Which
block reads and flushes fail is not up to the tool: the state holds the outcomes to come, and
once they are used up every operation succeeds.
-/

namespace Limine.Host

open Limine.Lib

inductive CacheState
  | clean
  | dirty
deriving DecidableEq, Repr

/-- How the host environment serves one block operation. -/
inductive Fault
  | none
  /-- `set_pos` fails -/
  | seek
  /-- a read or write ends after `got` bytes; of a write nothing reaches the device -/
  | short (got : Nat)
deriving DecidableEq, Repr

/-- `struct uninstall_data`; `count` bytes at `data`. -/
structure UninstallData where
  data : List UInt8
  loc : UInt64
deriving DecidableEq, Repr

def UninstallData.count (ud : UninstallData) : Nat := ud.data.length

def uninstallDataMax : Nat := 256

/-- `(uint64_t)-1`. -/
def noBlock : Nat := 2 ^ 64 - 1

structure Disk where
  device : List UInt8
  blockSize : Nat
  cacheState : CacheState
  cachedBlock : Nat
  cache : List UInt8
  uninstalling : Bool
  /-- the first `uninstall_data_i` entries -/
  uninstallData : List UninstallData
  faults : List Fault
deriving DecidableEq, Repr

/-- How the next operation ends. -/
def Disk.nextFault (s : Disk) : Fault := s.faults.headD .none

/-- The state once the next operation's outcome is used. -/
def Disk.tick (s : Disk) : Disk := { s with faults := s.faults.tail }

/-- What `device_init` leaves: the first block cached. -/
def deviceInit (blockSize : Nat) (device : List UInt8) (faults : List Fault) : Disk where
  device := device
  blockSize := blockSize
  cacheState := .clean
  cachedBlock := 0
  cache := slice device 0 blockSize
  uninstalling := false
  uninstallData := []
  faults := faults

def deviceFlushCache (s : Disk) : Bool × Disk :=
  if s.cacheState = .clean then (true, s)
  else if s.nextFault ≠ .none then (false, s.tick)
  else
    (true, { s.tick with
      device := splice s.device (s.cachedBlock * s.blockSize) s.cache
      cacheState := .clean })

/-- The bytes a block read that ends with `fault` finds. -/
def blockRead (s : Disk) (block : Nat) (fault : Fault) : List UInt8 :=
  match fault with
  | .short got => slice s.device (block * s.blockSize) (min got (s.blockSize - 1))
  | _ => slice s.device (block * s.blockSize) s.blockSize

/-- `device_cache_block` once the cache is clean. -/
def fetchBlock (s : Disk) (block : Nat) : Bool × Disk :=
  if s.nextFault = .seek then (false, s.tick)
  else
    let data := blockRead s block s.nextFault
    let cache := data ++ s.cache.drop data.length
    -- a short read still copies what it got
    if data.length ≠ s.blockSize then (false, { s.tick with cachedBlock := noBlock, cache := cache })
    else (true, { s.tick with cachedBlock := block, cache := cache })

def deviceCacheBlock (s : Disk) (block : Nat) : Bool × Disk :=
  if s.cachedBlock = block then (true, s)
  else if s.cacheState = .dirty then
    match deviceFlushCache s with
    | (false, s) => (false, s)
    | (true, s) => fetchBlock s block
  else fetchBlock s block

/-- `loc + progress`, in 64 bits. -/
def address (loc : UInt64) (progress : Nat) : Nat := (loc.toNat + progress) % 2 ^ 64

def chunkSize (s : Disk) (loc : UInt64) (count progress : Nat) : Nat :=
  let offset := address loc progress % s.blockSize
  if count - progress > s.blockSize - offset then s.blockSize - offset else count - progress

/-- The loop of `device_read_raw`; `buffer` is the `progress` bytes read so far. -/
def readLoop (loc : UInt64) (count : Nat) : Nat → Disk → List UInt8 → Bool × Disk × List UInt8
  | 0, s, buffer => (true, s, buffer)
  | fuel + 1, s, buffer =>
    if buffer.length < count then
      match deviceCacheBlock s (address loc buffer.length / s.blockSize) with
      | (false, s) => (false, s, buffer)
      | (true, s) =>
        let offset := address loc buffer.length % s.blockSize
        readLoop loc count fuel s
          (buffer ++ slice s.cache offset (chunkSize s loc count buffer.length))
    else (true, s, buffer)

def deviceReadRaw (s : Disk) (loc : UInt64) (count : Nat) : Bool × Disk × List UInt8 :=
  readLoop loc count count s []

/-- `memcpy` into the cache, which is dirty then. -/
def Disk.fill (s : Disk) (offset : Nat) (bytes : List UInt8) : Disk :=
  { s with cache := splice s.cache offset bytes, cacheState := .dirty }

/-- The loop of `device_write_raw`. -/
def writeLoop (buffer : List UInt8) (loc : UInt64) : Nat → Disk → Nat → Bool × Disk
  | 0, s, _ => (true, s)
  | fuel + 1, s, progress =>
    if progress < buffer.length then
      match deviceCacheBlock s (address loc progress / s.blockSize) with
      | (false, s) => (false, s)
      | (true, s) =>
        let chunk := chunkSize s loc buffer.length progress
        let offset := address loc progress % s.blockSize
        writeLoop buffer loc fuel (s.fill offset (slice buffer progress chunk)) (progress + chunk)
    else (true, s)

def deviceWriteRaw (s : Disk) (buffer : List UInt8) (loc : UInt64) : Bool × Disk :=
  if s.uninstalling then writeLoop buffer loc buffer.length s 0
  else if s.uninstallData.length ≥ uninstallDataMax then (false, s)
  else
    match deviceReadRaw s loc buffer.length with
    | (false, s, _) => (false, s)
    | (true, s, data) =>
      match writeLoop buffer loc buffer.length s 0 with
      | (false, s) => (false, s)
      | (true, s) => (true, { s with uninstallData := s.uninstallData ++ [⟨data, loc⟩] })

/-! ## Uninstalling -/

def reverseUninstallData (s : Disk) : Disk := { s with uninstallData := s.uninstallData.reverse }

/-- The cache is given up. -/
def Disk.dropCache (s : Disk) : Disk := { s with cacheState := .clean, cachedBlock := noBlock }

/-- One entry of `uninstall`'s loop: whether a write and whether a flush failed for good. -/
def uninstallEntry (s : Disk) (ud : UninstallData) : Disk × Bool × Bool :=
  match deviceWriteRaw s ud.data ud.loc with
  | (true, s) => (s, false, false)
  | (false, s) =>
    let (flushed, s) := deviceFlushCache s
    let (written, s) := deviceWriteRaw s.dropCache ud.data ud.loc
    (s, !written, !flushed)

def uninstallLoop (s : Disk) : List UninstallData → Disk × Bool × Bool
  | [] => (s, false, false)
  | ud :: uds =>
    let (s, writeFail, flushFail) := uninstallEntry s ud
    let (s, writeFail', flushFail') := uninstallLoop s uds
    (s, writeFail || writeFail', flushFail || flushFail')

/-- How `uninstall` begins. -/
def Disk.beginUninstall (s : Disk) : Disk := { s.dropCache with uninstalling := true }

def uninstall (s : Disk) : Bool × Disk :=
  let (s, writeFail, flushFail) := uninstallLoop s.beginUninstall s.uninstallData
  let (flushed, s) := deviceFlushCache s
  (!writeFail && !flushFail && flushed, s)

/-! ## The uninstall data file -/

/-- `fwrite` of one item: the bytes that reach the file.  An item of no bytes counts as not
written, since `fwrite` returns zero for it. -/
def fwriteItem (item : List UInt8) : Option (List UInt8) := if item = [] then none else some item

def storeEntries : List UninstallData → Option (List UInt8)
  | [] => some []
  | ud :: uds => do
    let loc ← fwriteItem (leBytes 8 ud.loc.toNat)
    let count ← fwriteItem (leBytes 8 ud.count)
    let data ← fwriteItem ud.data
    let rest ← storeEntries uds
    return loc ++ count ++ data ++ rest

/-- `store_uninstall_data`: the file's contents, `none` on `fwrite_error`. -/
def storeUninstallData (s : Disk) : Option (List UInt8) := do
  let i ← fwriteItem (leBytes 8 s.uninstallData.length)
  let rest ← storeEntries s.uninstallData
  return i ++ rest

/-- `fread` of one item of `n` bytes, and the rest of the file. -/
def freadItem (n : Nat) (file : List UInt8) : Option (List UInt8 × List UInt8) :=
  if n = 0 ∨ file.length < n then none else some (file.take n, file.drop n)

def loadEntries : Nat → List UInt8 → Option (List UninstallData)
  | 0, _ => some []
  | n + 1, file => do
    let (loc, file) ← freadItem 8 file
    let (count, file) ← freadItem 8 file
    let (data, file) ← freadItem (leNat count) file
    let rest ← loadEntries n file
    return ⟨data, UInt64.ofNat (leNat loc)⟩ :: rest

def loadUninstallData (s : Disk) (file : List UInt8) : Option Disk := do
  let (count, file) ← freadItem 8 file
  if leNat count > uninstallDataMax then none
  else
    let uds ← loadEntries (leNat count) file
    return { s with uninstallData := uds }

end Limine.Host
