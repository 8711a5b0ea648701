import Limine.Lib.ByteMemory
import Limine.Loader.Memory
import Limine.Part.Gpt

/-!
# What a file system reads

A volume of fixed contents whose drive does not fail: a read inside the volume succeeds, with the bytes
that are there.
-/

namespace Limine.Fs
open Limine.Lib (ByteMemory)
open Limine.Loader (checkedMul)
open Limine.Part (noSectCount)

structure Volume where
  /-- In sectors of 512 bytes; `noSectCount` where the firmware does not say. -/
  sectCount : Nat
  byteAt : ByteMemory
  /-- How many bytes the medium has, where `sectCount` does not say. -/
  medium : Nat
  /-- What a read gives that leaves such a medium. -/
  past : Nat → Nat → Option (Nat → UInt8)

namespace Volume
variable (vol : Volume)

def bytes (loc count : Nat) : List UInt8 := ByteMemory.bytes vol.byteAt loc count

/-- `volume_read` -/
def volumeRead (loc count : Nat) : Option (List UInt8) :=
  if vol.sectCount = noSectCount then
    if count = 0 ∨ loc + count ≤ vol.medium then some (vol.bytes loc count)
    else (vol.past loc count).map fun byte => (List.range count).map byte
  else do
    let partSize ← checkedMul vol.sectCount 512
    if loc ≥ partSize ∨ count > partSize - loc then none else some (vol.bytes loc count)

/-- The bytes there are, `none` where the volume is too large to be addressed. -/
def size : Option Nat :=
  if vol.sectCount = noSectCount then some vol.medium else checkedMul vol.sectCount 512

def Inside (loc count : Nat) : Prop := ∃ size, vol.size = some size ∧ loc + count ≤ size

@[simp] theorem length_bytes (loc count : Nat) : (vol.bytes loc count).length = count :=
  ByteMemory.length_bytes vol.byteAt loc count

/-- A part of a range of bytes. -/
theorem bytes_drop_take {loc size off n : Nat} (h : off + n ≤ size) :
    ((vol.bytes loc size).drop off).take n = vol.bytes (loc + off) n :=
  ByteMemory.bytes_drop_take vol.byteAt h

theorem length_of_volumeRead {loc count : Nat} {bytes : List UInt8}
    (h : vol.volumeRead loc count = some bytes) : bytes.length = count := by
  unfold volumeRead at h
  split at h
  · split at h
    · cases h
      simp
    · obtain ⟨byte, -, rfl⟩ := Option.map_eq_some_iff.mp h
      simp
  · obtain ⟨partSize, -, h⟩ := Option.bind_eq_some_iff.mp h
    split at h
    · cases h
    · cases h
      simp

variable {vol}

/-- A read inside the volume does not fail. -/
theorem volumeRead_inside {loc count : Nat} (h : vol.Inside loc count) (hc : 0 < count) :
    vol.volumeRead loc count = some (vol.bytes loc count) := by
  obtain ⟨size, hs, hfit⟩ := h
  unfold Volume.size at hs
  unfold volumeRead
  split at hs
  · next hunknown =>
    cases hs
    rw [if_pos hunknown, if_pos (Or.inr hfit)]
  · next hknown =>
    rw [if_neg hknown, hs]
    show (if loc ≥ size ∨ count > size - loc then none else some (vol.bytes loc count)) = _
    rw [if_neg (by omega)]

/-- Where the size is known a read succeeds inside the volume only. -/
theorem inside_of_volumeRead {loc count : Nat} {bytes : List UInt8} (hknown : vol.sectCount ≠ noSectCount)
    (h : vol.volumeRead loc count = some bytes) :
    vol.Inside loc count ∧ bytes = vol.bytes loc count := by
  unfold volumeRead at h
  rw [if_neg hknown] at h
  obtain ⟨partSize, hp, h⟩ := Option.bind_eq_some_iff.mp h
  split at h
  · cases h
  · next hfit =>
    cases h
    refine ⟨⟨partSize, ?_, by omega⟩, rfl⟩
    unfold size
    rw [if_neg hknown, hp]

end Volume

end Limine.Fs
