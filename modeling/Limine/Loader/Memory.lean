import Limine.Machine
import Limine.Lib.Bytes
import Limine.Lib.Triple

/-!
# What the loaders of executables touch

The bytes of the file, which nobody vouches for, and the memory the image is built in.  An access
of a loader is a step that can go wrong: outside the file, outside the image or outside a table it
made, it has a `Fault`, as has an `int` product that overflows.  Next to these the source's
`panic` is a regular end.
-/

namespace Limine.Loader
open Limine.Lib

/-- How a loader stops without a result. -/
inductive Fault
  | panic (msg : String)
  /-- A read outside `[0, file_size)`. -/
  | fileBounds
  /-- An access outside the memory of the image. -/
  | imageBounds
  /-- An index that is not below the count its table was allocated for. -/
  | tableBounds
  /-- An `int` product of `2 ^ 31` or more, which C leaves undefined. -/
  | signedOverflow
  | outOfFuel
deriving DecidableEq, Repr

abbrev Load := Except Fault

def Fault.IsPanic : Fault → Prop
  | .panic _ => True
  | _ => False

/-- A run that returns, with `post`, or panics. -/
abbrev Safely {α : Type} (x : Load α) (post : α → Prop) : Prop := Ends Fault.IsPanic x post

def panic {α : Type} (msg : String) : Load α := .error (.panic msg)

theorem Safely.panic {α : Type} {msg : String} {post : α → Prop} :
    Safely (Loader.panic msg : Load α) post :=
  trivial

/-- `onerror` as a panic. -/
def orPanic {α : Type} (msg : String) : Option α → Load α
  | some a => .ok a
  | none => panic msg

theorem Safely.orPanic_bind {α β : Type} {msg : String} {x : Option α} {k : α → Load β}
    {post : β → Prop} (h : ∀ a, x = some a → Safely (k a) post) :
    Safely (orPanic msg x >>= k) post := by
  cases x with
  | none => trivial
  | some a => exact h a rfl

/-- `if (refused) panic(msg);` -/
def panicIf (refused : Bool) (msg : String) : Load Unit := if refused then panic msg else .ok ()

theorem Safely.panicIf_bind {β : Type} {refused : Bool} {msg : String} {k : Unit → Load β}
    {post : β → Prop} (h : refused = false → Safely (k ()) post) :
    Safely (panicIf refused msg >>= k) post := by
  cases refused with
  | true => trivial
  | false => exact h rfl

/-! ## `uint64_t` -/

def add64 (a b : Nat) : Nat := (a + b) % 2 ^ 64

def sub64 (a b : Nat) : Nat := (a + 2 ^ 64 - b) % 2 ^ 64

/-- `CHECKED_MUL` on `uint64_t`; `none` is its `onerror`. -/
def checkedMul (a b : Nat) : Option Nat := if a * b < 2 ^ 64 then some (a * b) else none

theorem add64_lt (a b : Nat) : add64 a b < 2 ^ 64 := Nat.mod_lt _ (by decide)

theorem sub64_lt (a b : Nat) : sub64 a b < 2 ^ 64 := Nat.mod_lt _ (by decide)

theorem add64_eq {a b : Nat} (h : a + b < 2 ^ 64) : add64 a b = a + b := Nat.mod_eq_of_lt h

theorem sub64_eq {a b : Nat} (h : b ≤ a) (ha : a < 2 ^ 64) : sub64 a b = a - b := by
  unfold sub64
  omega

theorem checkedMul_eq_some_iff {a b c : Nat} :
    checkedMul a b = some c ↔ a * b < 2 ^ 64 ∧ c = a * b := by
  unfold checkedMul
  split
  · next h =>
    constructor
    · intro hc
      exact ⟨h, (Option.some.inj hc).symm⟩
    · rintro ⟨-, rfl⟩
      rfl
  · next h =>
    constructor
    · intro hc
      cases hc
    · intro hc
      exact absurd hc.1 h

/-- `~a` -/
def not64 (a : Nat) : Nat := 2 ^ 64 - 1 - a

/-! ## The file -/

/-- The 64-bit ports. -/
inductive Arch
  | x86_64
  | aarch64
  | riscv64
  | loongarch64
deriving DecidableEq, Repr

/-- An executable file as it stands in memory; `size` is a `size_t`. -/
structure File where
  size : Nat
  size_lt : size < 2 ^ 64
  byte : Nat → UInt8

/-- A structure of `len` bytes at `off`, given what its bytes say. -/
def File.read {α : Type} (f : File) (off len : Nat) (decode : (Nat → UInt8) → Nat → α) : Load α :=
  if off + len ≤ f.size then .ok (decode f.byte off) else .error .fileBounds

theorem File.read_eq {α : Type} {f : File} {off len : Nat} {decode : (Nat → UInt8) → Nat → α}
    (h : off + len ≤ f.size) : f.read off len decode = .ok (decode f.byte off) :=
  if_pos h

/-! ## Memory of the allocator -/

/-- The requests to `ext_mem_alloc` of one load. -/
structure Allocator where
  /-- The memory of the image, by size and alignment. -/
  image : Nat → Nat → Option Nat
  image_fits : ∀ {size align base}, image size align = some base → base + size < 2 ^ 64
  image_aligned : ∀ {size align base}, image size align = some base → align ∣ base
  /-- Whether there is memory for the table that request number `n` is for, by size. -/
  table : Nat → Nat → Bool

def extMemAllocCounted (alloc : Allocator) (n count elemSize : Nat) : Load Unit := do
  let size ← orPanic "ext_mem_alloc_counted: allocation size overflow" (checkedMul count elemSize)
  panicIf (!alloc.table n size) "High memory allocator: Out of memory"

theorem extMemAllocCounted_safely (alloc : Allocator) (n count elemSize : Nat) :
    Safely (extMemAllocCounted alloc n count elemSize) fun _ => True := by
  unfold extMemAllocCounted
  refine Safely.orPanic_bind fun size _ => ?_
  unfold panicIf
  split
  · exact Safely.panic
  · trivial

/-! ## The image -/

/-- Zeroed memory the allocator returned. -/
structure Region where
  base : Nat
  size : Nat
  fits : base + size < 2 ^ 64

/-- `ext_mem_alloc_type_aligned` for the image. -/
def imageMemory (alloc : Allocator) (size align : Nat) : Load Region :=
  match h : alloc.image size align with
  | some base => .ok ⟨base, size, alloc.image_fits h⟩
  | none => panic "High memory allocator: Out of memory"

theorem imageMemory_safely (alloc : Allocator) (size align : Nat) :
    Safely (imageMemory alloc size align) fun r => r.size = size ∧ align ∣ r.base := by
  unfold imageMemory
  split
  · next h => exact ⟨rfl, alloc.image_aligned h⟩
  · exact Safely.panic

/-- `struct mem_range` -/
structure MemRange where
  base : Nat
  length : Nat
  permissions : Nat
deriving DecidableEq, Repr

def memRangeX : Nat := 1
def memRangeW : Nat := 2
def memRangeR : Nat := 4

def Region.Has (r : Region) (a len : Nat) : Prop := r.base ≤ a ∧ a + len ≤ r.base + r.size

instance (r : Region) (a len : Nat) : Decidable (r.Has a len) := by
  unfold Region.Has
  infer_instance

abbrev Bytes := Nat → UInt8

/-- The memory `m` with `len` bytes from `a` on replaced by those of `src`. -/
def overlay (m : Bytes) (a len : Nat) (src : Bytes) : Bytes := fun x =>
  if a ≤ x ∧ x < a + len then src (x - a) else m x

theorem overlay_of_mem {m src : Bytes} {a len x : Nat} (h1 : a ≤ x) (h2 : x < a + len) :
    overlay m a len src x = src (x - a) :=
  if_pos ⟨h1, h2⟩

theorem overlay_of_not_mem {m src : Bytes} {a len x : Nat} (h : x < a ∨ a + len ≤ x) :
    overlay m a len src x = m x :=
  if_neg (by omega)

/-- `memcpy` from the file into the image. -/
def memcpy (r : Region) (m : Bytes) (f : File) (dst src len : Nat) : Load Bytes :=
  if ¬src + len ≤ f.size then .error .fileBounds
  else if r.Has dst len then .ok (overlay m dst len fun i => f.byte (src + i))
  else .error .imageBounds

/-- A number of `len` bytes in the image. -/
def loadNat (r : Region) (m : Bytes) (a len : Nat) : Load Nat :=
  if r.Has a len then .ok (leAt m a len) else .error .imageBounds

/-- Byte `i` of `v` is `v >> (8 * i)`, truncated. -/
def storeNat (r : Region) (m : Bytes) (a len v : Nat) : Load Bytes :=
  if r.Has a len then .ok (overlay m a len fun i => UInt8.ofNat (v >>> (8 * i)))
  else .error .imageBounds

section
variable {r : Region} {m : Bytes} {f : File}

theorem memcpy_eq {dst src len : Nat} (hs : src + len ≤ f.size) (hd : r.Has dst len) :
    memcpy r m f dst src len = .ok (overlay m dst len fun i => f.byte (src + i)) := by
  unfold memcpy
  rw [if_neg (by omega), if_pos hd]

theorem loadNat_eq {a len : Nat} (h : r.Has a len) : loadNat r m a len = .ok (leAt m a len) := if_pos h

theorem storeNat_eq {a len v : Nat} (h : r.Has a len) :
    storeNat r m a len v = .ok (overlay m a len fun i => UInt8.ofNat (v >>> (8 * i))) :=
  if_pos h

end

/-! ## Samples -/

/-- The bytes of little-endian 64-bit words. -/
def wordByte (words : List Nat) (i : Nat) : UInt8 :=
  UInt8.ofNat (words.getD (i / 8) 0 >>> (8 * (i % 8)))

/-- Memory for the image at the first address that is aligned, and for every table. -/
def plainAlloc : Allocator where
  image size align := if align + size < 2 ^ 64 then some align else none
  image_fits {size align base} h := by
    obtain ⟨hle, ⟨⟩⟩ := Option.ite_none_right_eq_some.mp h
    exact hle
  image_aligned {size align base} h := by
    obtain ⟨-, ⟨⟩⟩ := Option.ite_none_right_eq_some.mp h
    exact Nat.dvd_refl _
  table _ _ := true

end Limine.Loader
