import Limine.Lib.ByteMemory
import Limine.Lib.Bytes

/-!
# The arena of a font

FreeType gets its memory from one arena per font.  The headers of the blocks lie in the arena
itself, each in front of what it describes, and are chained by their `next`.  A request that is
refused does not return: the face is given up as a whole.
-/

namespace Limine.Ui

open Limine.Lib

/-- The two sizes a `size_t` and a pointer have. -/
inductive Word
  | w32
  | w64
deriving DecidableEq, Repr

def Word.bytes : Word → Nat
  | w32 => 4
  | w64 => 8

/-- `sizeof(struct font_block)`, which is aligned to 16. -/
def Word.header : Word → Nat
  | w32 => 16
  | w64 => 32

/-- `font->arena` and `FONT_BUDGET`. -/
structure Arena where
  word : Word
  base : Nat
  budget : Nat
  base_aligned : 16 ∣ base
  base_pos : 0 < base
  budget_aligned : 16 ∣ budget
  budget_room : word.header < budget
  no_wrap : base + budget < 256 ^ word.bytes

/-- Why a call does not return: `font->failed` is set, or the fuel of a loop is used up. -/
inductive Refusal
  | allocationFailure
  | outOfFuel
deriving DecidableEq, Repr

section
variable (A : Arena)

/-! ## The fields of a header -/

def blockSize (mem : ByteMemory) (block : Nat) : Nat := leAt mem block A.word.bytes

def blockNext (mem : ByteMemory) (block : Nat) : Nat := leAt mem (block + A.word.bytes) A.word.bytes

def blockFree (mem : ByteMemory) (block : Nat) : Bool := mem (block + 2 * A.word.bytes) ≠ 0

def setSize (mem : ByteMemory) (block size : Nat) : ByteMemory :=
  mem.store block (leBytes A.word.bytes size)

def setNext (mem : ByteMemory) (block next : Nat) : ByteMemory :=
  mem.store (block + A.word.bytes) (leBytes A.word.bytes next)

def setFree (mem : ByteMemory) (block : Nat) (free : Bool) : ByteMemory :=
  mem.store (block + 2 * A.word.bytes) [if free then 1 else 0]

/-- `*block = (struct font_block){..}` -/
def setBlock (mem : ByteMemory) (block size next : Nat) (free : Bool) : ByteMemory :=
  setFree A (setNext A (setSize A mem block size) block next) block free

/-! ## The functions -/

/-- What the loop of `font_alloc` does to the block it settles on. -/
def takeBlock (mem : ByteMemory) (block bytes : Nat) : ByteMemory :=
  let mem :=
    if bytes + A.word.header + 16 ≤ blockSize A mem block then
      let next := block + A.word.header + bytes
      let mem := setBlock A mem next (blockSize A mem block - bytes - A.word.header)
        (blockNext A mem block) true
      let mem := setNext A mem block next
      setSize A mem block bytes
    else mem
  setFree A mem block false

/-- The loop of `font_alloc`. -/
def allocLoop (mem : ByteMemory) (bytes : Nat) : Nat → Nat → Except Refusal (ByteMemory × Nat)
  | 0, _ => .error .outOfFuel
  | fuel + 1, block =>
    if block = 0 then .error .allocationFailure
    else if !blockFree A mem block || blockSize A mem block < bytes then
      allocLoop mem bytes fuel (blockNext A mem block)
    else .ok (takeBlock A mem block bytes, block + A.word.header)

/-- A request rounded up to 16. -/
def roundedUp (size : Nat) : Nat := (size + 15) / 16 * 16

/-- `font_alloc`; `size` is a `long`. -/
def fontAlloc (mem : ByteMemory) (size : Int) : Except Refusal (ByteMemory × Nat) :=
  if 0 < size ∧ size ≤ A.budget then
    allocLoop A mem (roundedUp size.toNat) (A.budget + 1) A.base
  else .error .allocationFailure

/-- The loop of `font_free`. -/
def mergeLoop : Nat → Nat → ByteMemory → Except Refusal ByteMemory
  | 0, _, _ => .error .outOfFuel
  | fuel + 1, block, mem =>
    if block = 0 ∨ blockNext A mem block = 0 then .ok mem
    else
      let next := blockNext A mem block
      if blockFree A mem block && blockFree A mem next then
        let mem := setSize A mem block
          (blockSize A mem block + (A.word.header + blockSize A mem next))
        mergeLoop fuel block (setNext A mem block (blockNext A mem next))
      else mergeLoop fuel next mem

/-- `font_free` -/
def fontFree (mem : ByteMemory) (ptr : Nat) : Except Refusal ByteMemory :=
  if ptr = 0 then .ok mem
  else mergeLoop A (A.budget + 1) A.base (setFree A mem (ptr - A.word.header) true)

/-- `font_realloc` -/
def fontRealloc (mem : ByteMemory) (oldSize size : Int) (ptr : Nat) :
    Except Refusal (ByteMemory × Nat) := do
  let (mem, result) ← fontAlloc A mem size
  let mem :=
    if ptr ≠ 0 ∧ 0 < oldSize then
      mem.copyUp result ptr (if oldSize < size then oldSize else size).toNat
    else mem
  let mem ← fontFree A mem ptr
  return (mem, result)

/-- `ui_font_open` leaves one free block, whatever is in the memory. -/
def openArena (mem : ByteMemory) : ByteMemory :=
  setBlock A mem A.base (A.budget - A.word.header) 0 true

/-! ## Runs -/

/-- An allocation that has not been freed, with the size it was asked for. -/
structure Live where
  ptr : Nat
  size : Nat
deriving DecidableEq, Repr

structure FontState where
  mem : ByteMemory
  live : List Live

/-- The calls, and what the owner of an allocation writes into it between them. -/
inductive Call
  | alloc (size : Int)
  | free (ptr : Nat)
  | realloc (oldSize size : Int) (ptr : Nat)
  | write (addr : Nat) (byte : UInt8)
deriving DecidableEq, Repr

def Live.Has (l : Live) (a : Nat) : Prop := l.ptr ≤ a ∧ a < l.ptr + l.size

/-- A pointer is live or `NULL`, and the old size of a live one is its true one. -/
def Call.Allowed (live : List Live) : Call → Prop
  | .alloc _ => True
  | .free ptr => ptr = 0 ∨ ∃ l ∈ live, l.ptr = ptr
  | .realloc oldSize _ ptr => ptr = 0 ∨ ∃ l ∈ live, l.ptr = ptr ∧ (l.size : Int) = oldSize
  | .write addr _ => ∃ l ∈ live, l.Has addr

def without (live : List Live) (ptr : Nat) : List Live := live.filter fun l => l.ptr ≠ ptr

/-- One call; `.error` where it does not return. -/
def step (s : FontState) : Call → Except Refusal FontState
  | .alloc size => do
    let (mem, p) ← fontAlloc A s.mem size
    return ⟨mem, ⟨p, size.toNat⟩ :: s.live⟩
  | .free ptr => do
    let mem ← fontFree A s.mem ptr
    return ⟨mem, without s.live ptr⟩
  | .realloc oldSize size ptr => do
    let (mem, p) ← fontRealloc A s.mem oldSize size ptr
    return ⟨mem, ⟨p, size.toNat⟩ :: without s.live ptr⟩
  | .write addr byte => .ok ⟨Function.update s.mem addr byte, s.live⟩

/-- What a sequence of calls that are not refused leads to. -/
inductive Reached (mem : ByteMemory) : FontState → Prop
  | start : Reached mem ⟨openArena A mem, []⟩
  | call {s s' : FontState} (c : Call) : Reached mem s → c.Allowed s.live → step A s c = .ok s' →
      Reached mem s'

end

end Limine.Ui
