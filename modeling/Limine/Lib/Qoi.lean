import Mathlib.Logic.Function.Basic

/-!
# The QOI image format

What a byte string says under the format's specification: it is cut into chunks, and each chunk
gives one pixel or a run of the previous one, from the previous pixel and from the 64 pixels seen
last under their hash.  Channels are `UInt8`, so the differences wrap as the specification asks.
-/

namespace Limine.Lib.Qoi

structure Pixel where
  r : UInt8
  g : UInt8
  b : UInt8
  a : UInt8
deriving DecidableEq

def Pixel.hash (p : Pixel) : Fin 64 :=
  Fin.ofNat 64 (p.r.toNat * 3 + p.g.toNat * 5 + p.b.toNat * 7 + p.a.toNat * 11)

inductive Chunk
  | rgb (r g b : UInt8)
  | rgba (r g b a : UInt8)
  | index (i : Fin 64)
  | diff (dr dg db : UInt8)
  /-- the differences of red and blue are given from that of green -/
  | luma (dg drDg dbDg : UInt8)
  | run (length : Nat)
deriving DecidableEq

/-- The chunk that the bytes begin with, and what follows it: none when it is cut short.  The tags
of eight bits come before those of two. -/
def Chunk.parse : List UInt8 → Option (Chunk × List UInt8)
  | [] => none
  | op :: bytes =>
    if op = 0xfe then
      match bytes with
      | r :: g :: b :: rest => some (.rgb r g b, rest)
      | _ => none
    else if op = 0xff then
      match bytes with
      | r :: g :: b :: a :: rest => some (.rgba r g b a, rest)
      | _ => none
    else if op < 0x40 then some (.index (Fin.ofNat 64 op.toNat), bytes)
    else if op < 0x80 then
      some (.diff (op / 16 % 4 - 2) (op / 4 % 4 - 2) (op % 4 - 2), bytes)
    else if op < 0xc0 then
      match bytes with
      | b2 :: rest => some (.luma (op % 64 - 32) (b2 / 16 - 8) (b2 % 16 - 8), rest)
      | [] => none
    else some (.run (op.toNat % 64 + 1), bytes)

theorem Chunk.parse_length {bytes rest : List UInt8} {c : Chunk} (h : parse bytes = some (c, rest)) :
    rest.length < bytes.length := by
  unfold parse at h
  split at h
  · cases h
  · repeat' split at h
    all_goals
      cases h
      try (simp only [List.length_cons]; omega)

/-- All chunks, up to one that is cut short. -/
def chunks (bytes : List UInt8) : List Chunk :=
  match _h : Chunk.parse bytes with
  | none => []
  | some (c, rest) => c :: chunks rest
termination_by bytes.length
decreasing_by exact Chunk.parse_length _h

theorem chunks_of_none {bytes : List UInt8} (h : Chunk.parse bytes = none) : chunks bytes = [] := by
  rw [chunks]
  split
  · rfl
  · next h' => cases h.symm.trans h'

theorem chunks_of_some {bytes rest : List UInt8} {c : Chunk}
    (h : Chunk.parse bytes = some (c, rest)) : chunks bytes = c :: chunks rest := by
  rw [chunks]
  split
  · next h' => cases h.symm.trans h'
  · next h' =>
    cases h.symm.trans h'
    rfl

/-- The previous pixel and the running array of pixels seen. -/
structure Running where
  prev : Pixel
  seen : Fin 64 → Pixel

def Running.start : Running where
  prev := ⟨0, 0, 0, 255⟩
  seen := fun _ => ⟨0, 0, 0, 0⟩

def Running.see (s : Running) (p : Pixel) : Running where
  prev := p
  seen := Function.update s.seen p.hash p

def Chunk.pixel (s : Running) : Chunk → Pixel
  | .rgb r g b => ⟨r, g, b, s.prev.a⟩
  | .rgba r g b a => ⟨r, g, b, a⟩
  | .index i => s.seen i
  | .diff dr dg db => ⟨s.prev.r + dr, s.prev.g + dg, s.prev.b + db, s.prev.a⟩
  | .luma dg drDg dbDg =>
    ⟨s.prev.r + (dg + drDg), s.prev.g + dg, s.prev.b + (dg + dbDg), s.prev.a⟩
  | .run _ => s.prev

def Chunk.length : Chunk → Nat
  | .run length => length
  | _ => 1

def pixels (s : Running) : List Chunk → List Pixel
  | [] => []
  | c :: cs => List.replicate c.length (c.pixel s) ++ pixels (s.see (c.pixel s)) cs

/-- The pixels of an image whose chunks are these bytes. -/
def decode (bytes : List UInt8) : List Pixel := pixels Running.start (chunks bytes)

end Limine.Lib.Qoi
