import Limine.Lib.Bytes
import Mathlib.Logic.Function.Basic

/-!
# Memory as bytes by address

The loops that copy and set bytes one after the other, each with what it leaves at every address: a copy
is a copy where it does not run into what it has still to read.
-/

namespace Limine.Lib

abbrev ByteMemory := Nat → UInt8

namespace ByteMemory

variable (mem : ByteMemory)

/-- `n` bytes of `src` to `dest`, from the first one on. -/
def copyUp (dest src : Nat) : Nat → ByteMemory
  | 0 => mem
  | n + 1 => Function.update (copyUp dest src n) (dest + n) (copyUp dest src n (src + n))

/-- The bytes from number `n - 1` down. -/
def copyDown (dest src : Nat) : Nat → ByteMemory → ByteMemory
  | 0, mem => mem
  | n + 1, mem => copyDown dest src n (Function.update mem (dest + n) (mem (src + n)))

/-- `memmove` -/
def move (dest src n : Nat) : ByteMemory :=
  if src > dest then mem.copyUp dest src n
  else if src < dest then copyDown dest src n mem
  else mem

def fill (dest : Nat) (c : UInt8) : Nat → ByteMemory
  | 0 => mem
  | n + 1 => Function.update (fill dest c n) (dest + n) c

/-- Bytes from elsewhere. -/
def store (dest : Nat) (bytes : List UInt8) : ByteMemory := fun a =>
  if dest ≤ a ∧ a < dest + bytes.length then bytes.getD (a - dest) 0 else mem a

theorem store_of_not_mem {dest a : Nat} {new : List UInt8} (h : a < dest ∨ dest + new.length ≤ a) :
    mem.store dest new a = mem a := if_neg (by omega)

theorem store_apply {dest i : Nat} {new : List UInt8} (h : i < new.length) :
    mem.store dest new (dest + i) = new[i] := by
  unfold store
  rw [if_pos (by omega), Nat.add_sub_cancel_left, List.getD_eq_getElem?_getD, List.getElem?_eq_getElem h,
    Option.getD_some]

/-- A number that is stored is read back. -/
theorem leAt_store {n x : Nat} (dest : Nat) (h : x < 256 ^ n) :
    leAt (mem.store dest (leBytes n x)) dest n = x := by
  refine leAt_eq_of_bytes h fun k hk => ?_
  rw [store_apply mem (by rw [length_leBytes]; exact hk)]
  simp [leBytes_eq_map]

theorem leAt_store_of_apart {dest addr n : Nat} {new : List UInt8}
    (h : addr + n ≤ dest ∨ dest + new.length ≤ addr) : leAt (mem.store dest new) addr n = leAt mem addr n :=
  leAt_congr fun x h1 h2 => store_of_not_mem mem (by omega)

def bytes (addr n : Nat) : List UInt8 := (List.range n).map fun i => mem (addr + i)

@[simp] theorem length_bytes (addr n : Nat) : (mem.bytes addr n).length = n := by
  simp [bytes]

theorem bytes_append (addr a b : Nat) :
    mem.bytes addr (a + b) = mem.bytes addr a ++ mem.bytes (addr + a) b := by
  unfold bytes
  rw [List.range_add, List.map_append, List.map_map]
  congr 1
  apply List.map_congr_left
  intro i _
  show mem (addr + (a + i)) = mem (addr + a + i)
  rw [Nat.add_assoc]

theorem bytes_eq_append_iff {addr n : Nat} {xs ys : List UInt8} :
    mem.bytes addr n = xs ++ ys ↔ n = xs.length + ys.length ∧ mem.bytes addr xs.length = xs ∧
      mem.bytes (addr + xs.length) ys.length = ys := by
  constructor
  · intro h
    have hlen : n = xs.length + ys.length := by
      have := congrArg List.length h
      rwa [length_bytes, List.length_append] at this
    rw [hlen, bytes_append] at h
    obtain ⟨hxs, hys⟩ := List.append_inj h (length_bytes mem addr xs.length)
    exact ⟨hlen, hxs, hys⟩
  · rintro ⟨rfl, hxs, hys⟩
    rw [bytes_append, hxs, hys]

/-- The bytes of a number are there where it is read. -/
theorem bytes_eq_leBytes_iff {addr n x : Nat} (h : x < 256 ^ n) :
    mem.bytes addr n = leBytes n x ↔ leAt mem addr n = x := by
  show _ ↔ leNat (mem.bytes addr n) = x
  constructor
  · intro hbytes
    rw [hbytes, leNat_leBytes h]
  · rintro rfl
    exact (leBytes_leNat_of_length (length_bytes mem addr n)).symm

/-- A part of a range of bytes. -/
theorem bytes_drop_take {addr size off n : Nat} (h : off + n ≤ size) :
    ((mem.bytes addr size).drop off).take n = mem.bytes (addr + off) n := by
  obtain ⟨rest, rfl⟩ := Nat.exists_eq_add_of_le h
  rw [bytes_append, bytes_append, List.append_assoc, List.drop_left' (by simp), List.take_left' (by simp)]

theorem bytes_congr {mem mem' : ByteMemory} {addr addr' n : Nat}
    (h : ∀ i, i < n → mem (addr + i) = mem' (addr' + i)) : mem.bytes addr n = mem'.bytes addr' n := by
  apply List.map_congr_left
  intro i hi
  exact h i (List.mem_range.mp hi)

theorem copyUp_apply {dest src n : Nat} (h : dest ≤ src ∨ src + n ≤ dest) (a : Nat) :
    mem.copyUp dest src n a = if dest ≤ a ∧ a < dest + n then mem (src + (a - dest)) else mem a := by
  induction n generalizing a with
  | zero =>
    rw [if_neg (by omega)]
    rfl
  | succ n ih =>
    have ih := ih (by omega)
    unfold copyUp
    by_cases ha : a = dest + n
    · subst ha
      rw [Function.update_self, if_pos (by omega), Nat.add_sub_cancel_left, ih, if_neg (by omega)]
    · rw [Function.update_of_ne ha, ih]
      split
      · rw [if_pos (by omega)]
      · rw [if_neg (by omega)]

theorem copyDown_apply {dest src n : Nat} (h : src ≤ dest) (a : Nat) :
    copyDown dest src n mem a = if dest ≤ a ∧ a < dest + n then mem (src + (a - dest)) else mem a := by
  induction n generalizing mem a with
  | zero =>
    rw [if_neg (by omega)]
    rfl
  | succ n ih =>
    unfold copyDown
    rw [ih]
    by_cases hin : dest ≤ a ∧ a < dest + n
    · rw [if_pos hin, if_pos (by omega), Function.update_of_ne (by omega)]
    · rw [if_neg hin]
      by_cases ha : a = dest + n
      · subst ha
        rw [Function.update_self, if_pos (by omega), Nat.add_sub_cancel_left]
      · rw [Function.update_of_ne ha, if_neg (by omega)]

theorem move_apply (dest src n a : Nat) :
    mem.move dest src n a = if dest ≤ a ∧ a < dest + n then mem (src + (a - dest)) else mem a := by
  unfold move
  split
  · next h => exact mem.copyUp_apply (Or.inl (Nat.le_of_lt h)) a
  split
  · next h => exact mem.copyDown_apply (Nat.le_of_lt h) a
  · next h h' =>
    have hsame : src = dest := by omega
    rw [hsame]
    split
    · next hin => rw [Nat.add_sub_cancel' hin.1]
    · rfl

theorem fill_apply {dest n : Nat} {c : UInt8} (a : Nat) :
    mem.fill dest c n a = if dest ≤ a ∧ a < dest + n then c else mem a := by
  induction n generalizing a with
  | zero =>
    rw [if_neg (by omega)]
    rfl
  | succ n ih =>
    unfold fill
    by_cases ha : a = dest + n
    · subst ha
      rw [Function.update_self, if_pos (by omega)]
    · rw [Function.update_of_ne ha, ih]
      split
      · rw [if_pos (by omega)]
      · rw [if_neg (by omega)]

theorem bytes_copyUp {dest src n : Nat} (h : dest ≤ src ∨ src + n ≤ dest) :
    (mem.copyUp dest src n).bytes dest n = mem.bytes src n := by
  apply bytes_congr
  intro i hi
  rw [mem.copyUp_apply h, if_pos (by omega), Nat.add_sub_cancel_left]

theorem bytes_move (dest src n : Nat) : (mem.move dest src n).bytes dest n = mem.bytes src n := by
  apply bytes_congr
  intro i hi
  rw [move_apply, if_pos (by omega), Nat.add_sub_cancel_left]

theorem bytes_fill {dest n addr len : Nat} {c : UInt8} (h : addr + len ≤ dest ∨ dest + n ≤ addr) :
    (mem.fill dest c n).bytes addr len = mem.bytes addr len := by
  apply bytes_congr
  intro i hi
  rw [mem.fill_apply, if_neg (by omega)]

/-- What is stored behind some bytes continues them. -/
theorem bytes_store (addr n : Nat) (new : List UInt8) :
    (mem.store (addr + n) new).bytes addr (n + new.length) = mem.bytes addr n ++ new := by
  rw [bytes_append]
  congr 1
  · apply bytes_congr
    intro i hi
    unfold store
    rw [if_neg (by omega)]
  · apply List.ext_getElem
    · rw [length_bytes]
    · intro i h1 h2
      have hi : addr + n + i - (addr + n) = i := Nat.add_sub_cancel_left ..
      simp only [bytes, store, List.getElem_map, List.getElem_range]
      rw [if_pos (by omega), hi, List.getD_eq_getElem?_getD, List.getElem?_eq_getElem h2, Option.getD_some]

end ByteMemory

end Limine.Lib
