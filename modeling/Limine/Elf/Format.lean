import Limine.Loader.Memory

/-!
# ELF64 files

The structures of the file, its header checks, and the loops over the program headers.  All of
them but one compute the place of a header from `i * hdr->phdr_size`, where `i` is a `uint16_t`,
so that the product is an `int`.
-/

namespace Limine.Elf
open Limine.Loader Limine.Lib

def etExec : Nat := 2
def etDyn : Nat := 3

def ptLoad : Nat := 1
def ptDynamic : Nat := 2

def archX86_64 : Nat := 0x3e
def archAarch64 : Nat := 0xb7
def archRiscv : Nat := 0xf3
def archLoongarch : Nat := 0x102
def bitsLe : Nat := 1
def elfclass64 : Nat := 2

def eiClass : Nat := 4
def eiData : Nat := 5

structure Elf64Hdr where
  ident : List Nat
  type : Nat
  machine : Nat
  entry : Nat
  phoff : Nat
  shoff : Nat
  phdrSize : Nat
  phNum : Nat
  shdrSize : Nat
deriving DecidableEq, Repr

def elf64Hdr (m : Nat → UInt8) (off : Nat) : Elf64Hdr where
  ident := (List.range 16).map fun i => (m (off + i)).toNat
  type := leAt m (off + 16) 2
  machine := leAt m (off + 18) 2
  entry := leAt m (off + 24) 8
  phoff := leAt m (off + 32) 8
  shoff := leAt m (off + 40) 8
  phdrSize := leAt m (off + 54) 2
  phNum := leAt m (off + 56) 2
  shdrSize := leAt m (off + 58) 2

def elf64HdrSize : Nat := 64

structure Elf64Phdr where
  type : Nat
  flags : Nat
  offset : Nat
  vaddr : Nat
  filesz : Nat
  memsz : Nat
  align : Nat
deriving DecidableEq, Repr

def elf64Phdr (m : Nat → UInt8) (off : Nat) : Elf64Phdr where
  type := leAt m off 4
  flags := leAt m (off + 4) 4
  offset := leAt m (off + 8) 8
  vaddr := leAt m (off + 16) 8
  filesz := leAt m (off + 32) 8
  memsz := leAt m (off + 40) 8
  align := leAt m (off + 48) 8

def elf64PhdrSize : Nat := 56

structure Elf64Rela where
  addr : Nat
  info : Nat
  symbol : Nat
  addend : Nat
deriving DecidableEq, Repr

def elf64Rela (m : Nat → UInt8) (off : Nat) : Elf64Rela where
  addr := leAt m off 8
  info := leAt m (off + 8) 4
  symbol := leAt m (off + 12) 4
  addend := leAt m (off + 16) 8

def elf64RelaSize : Nat := 24

structure Elf64Sym where
  name : Nat
  info : Nat
  shndx : Nat
  value : Nat
deriving DecidableEq, Repr

def elf64Sym (m : Nat → UInt8) (off : Nat) : Elf64Sym where
  name := leAt m off 4
  info := leAt m (off + 4) 1
  shndx := leAt m (off + 6) 2
  value := leAt m (off + 8) 8

def elf64SymSize : Nat := 24

structure Elf64Dyn where
  tag : Nat
  un : Nat
deriving DecidableEq, Repr

def elf64Dyn (m : Nat → UInt8) (off : Nat) : Elf64Dyn where
  tag := leAt m off 8
  un := leAt m (off + 8) 8

def elf64DynSize : Nat := 16

/-- `"\177ELF"` -/
def elfMagic : List Nat := [0x7f, 0x45, 0x4c, 0x46]

/-- Whether the machine of the file is not the port's; two ports look at the class too. -/
def wrongMachine : Arch → Elf64Hdr → Bool
  | .x86_64, hdr => hdr.machine != archX86_64
  | .aarch64, hdr => hdr.machine != archAarch64
  | .riscv64, hdr => hdr.machine != archRiscv || hdr.ident.getD eiClass 0 != elfclass64
  | .loongarch64, hdr => hdr.machine != archLoongarch || hdr.ident.getD eiClass 0 != elfclass64

def wrongMachineMsg : Arch → String
  | .x86_64 => "elf: Not an x86-64 ELF file."
  | .aarch64 => "elf: Not an aarch64 ELF file."
  | .riscv64 => "elf: Not a riscv64 ELF file."
  | .loongarch64 => "elf: Not a loongarch64 ELF file."

def elf64Validate (arch : Arch) (hdr : Elf64Hdr) : Load Unit := do
  panicIf (hdr.ident.take 4 != elfMagic) "elf: Not a valid ELF file."
  panicIf (hdr.ident.getD eiData 0 != bitsLe) "elf: Not a Little-endian ELF file."
  panicIf (wrongMachine arch hdr) (wrongMachineMsg arch)
  panicIf (hdr.phoff % 8 != 0 || hdr.phdrSize % 8 != 0 || hdr.shoff % 8 != 0 || hdr.shdrSize % 8 != 0)
    "elf: Header table is not naturally aligned in the file"

/-- The check every user of the program headers repeats. -/
def checkPhdrSize (hdr : Elf64Hdr) : Load Unit :=
  panicIf (hdr.phdrSize < elf64PhdrSize) "elf: phdr_size < sizeof(struct elf64_phdr)"

/-! ## The program headers -/

/-- Header `i`, with `i` a `size_t`. -/
def phdrAt (f : File) (hdr : Elf64Hdr) (i : Nat) : Load Elf64Phdr :=
  f.read (add64 hdr.phoff (i * hdr.phdrSize % 2 ^ 64)) elf64PhdrSize elf64Phdr

/-- Header `i`, with `i` a `uint16_t`: both factors promote to `int`. -/
def phdrAtInt (f : File) (hdr : Elf64Hdr) (i : Nat) : Load Elf64Phdr :=
  if 2 ^ 31 ≤ i * hdr.phdrSize then .error .signedOverflow
  else f.read (add64 hdr.phoff (i * hdr.phdrSize)) elf64PhdrSize elf64Phdr

/-- `for (uint16_t i = 0; i < hdr->ph_num; i++)`, with `n` headers from `i` on still to come. -/
def forPhdrsFrom {α : Type} (f : File) (hdr : Elf64Hdr) (body : α → Elf64Phdr → Load α) :
    Nat → Nat → α → Load α
  | 0, _, a => .ok a
  | n + 1, i, a => do
    let phdr ← phdrAtInt f hdr i
    let a ← body a phdr
    forPhdrsFrom f hdr body n (i + 1) a

def forPhdrs {α : Type} (f : File) (hdr : Elf64Hdr) (body : α → Elf64Phdr → Load α) (a : α) : Load α :=
  forPhdrsFrom f hdr body hdr.phNum 0 a

/-- A loop over the headers that ends where the body has a result. -/
def findPhdrFrom {α : Type} (at_ : Nat → Load Elf64Phdr) (body : Elf64Phdr → Load (Option α)) :
    Nat → Nat → Load (Option α)
  | 0, _ => .ok none
  | n + 1, i => do
    let phdr ← at_ i
    match ← body phdr with
    | some a => .ok (some a)
    | none => findPhdrFrom at_ body n (i + 1)

def findPhdr {α : Type} (at_ : Nat → Load Elf64Phdr) (hdr : Elf64Hdr)
    (body : Elf64Phdr → Load (Option α)) : Load (Option α) :=
  findPhdrFrom at_ body hdr.phNum 0

def elf64IsRelocatable (f : File) (hdr : Elf64Hdr) : Load Bool := do
  checkPhdrSize hdr
  if hdr.type != etDyn then return false
  match ← findPhdr (phdrAt f hdr) hdr fun phdr =>
      if phdr.type != ptDynamic then .ok none
      else if phdr.filesz = 0 then
        Loader.panic "elf: ELF file type is ET_DYN, but PT_DYNAMIC segment has 0 size"
      else .ok (some true) with
  | some found => return found
  | none => Loader.panic "elf: ELF file type is ET_DYN, but PT_DYNAMIC segment missing"

/-- `phdr->p_type != PT_LOAD || phdr->p_memsz == 0`, the other way round. -/
def Elf64Phdr.loadable (phdr : Elf64Phdr) : Bool := phdr.type == ptLoad && phdr.memsz != 0

/-! ## The table as a list -/

/-- What stands in the file where header `i` has its place. -/
def phdr (f : File) (hdr : Elf64Hdr) (i : Nat) : Elf64Phdr :=
  elf64Phdr f.byte (hdr.phoff + i * hdr.phdrSize)

def phdrs (f : File) (hdr : Elf64Hdr) : List Elf64Phdr := (List.range hdr.phNum).map (phdr f hdr)

/-- The table lies in the file, each entry being large enough. -/
structure TableOk (f : File) (hdr : Elf64Hdr) : Prop where
  size : elf64PhdrSize ≤ hdr.phdrSize
  fits : hdr.phoff + hdr.phNum * hdr.phdrSize ≤ f.size

/-- How many headers an `int` product reaches. -/
def reach (hdr : Elf64Hdr) : Nat := (2 ^ 31 - 1) / hdr.phdrSize + 1

section
variable {f : File} {hdr : Elf64Hdr}

theorem TableOk.place (h : TableOk f hdr) {i : Nat} (hi : i < hdr.phNum) :
    hdr.phoff + i * hdr.phdrSize + elf64PhdrSize ≤ f.size := by
  have h1 := h.fits
  have h2 := h.size
  have h3 : (i + 1) * hdr.phdrSize ≤ hdr.phNum * hdr.phdrSize := Nat.mul_le_mul_right _ hi
  rw [Nat.succ_mul] at h3
  omega

theorem phdrAt_eq (h : TableOk f hdr) {i : Nat} (hi : i < hdr.phNum) :
    phdrAt f hdr i = .ok (phdr f hdr i) := by
  have h1 := h.place hi
  have h2 := f.size_lt
  unfold phdrAt
  rw [Nat.mod_eq_of_lt (by omega), add64_eq (by omega)]
  exact File.read_eq h1

theorem lt_reach_iff (h : TableOk f hdr) (i : Nat) : i < reach hdr ↔ i * hdr.phdrSize < 2 ^ 31 := by
  have h1 : 0 < hdr.phdrSize := Nat.lt_of_lt_of_le (by decide) h.size
  unfold reach
  rw [Nat.lt_succ_iff, Nat.le_div_iff_mul_le h1]
  omega

theorem phdrAtInt_eq (h : TableOk f hdr) {i : Nat} (hi : i < hdr.phNum) (hr : i < reach hdr) :
    phdrAtInt f hdr i = .ok (phdr f hdr i) := by
  have h1 := h.place hi
  have h2 := f.size_lt
  have h3 := (lt_reach_iff h i).mp hr
  unfold phdrAtInt
  rw [if_neg (by omega), add64_eq (by omega)]
  exact File.read_eq h1

theorem phdrAtInt_overflow (h : TableOk f hdr) {i : Nat} (hr : ¬i < reach hdr) :
    phdrAtInt f hdr i = .error .signedOverflow :=
  if_pos (Nat.le_of_not_lt (mt (lt_reach_iff h i).mpr hr))

/-- A loop with `uint16_t` goes over the headers that an `int` reaches, and then overflows if any
are left. -/
theorem forPhdrsFrom_eq {α : Type} (h : TableOk f hdr) (body : α → Elf64Phdr → Load α) (n : Nat) :
    ∀ (i : Nat) (a : α), i ≤ reach hdr → i + n = hdr.phNum →
      forPhdrsFrom f hdr body n i a =
        (((List.range' i (min n (reach hdr - i))).map (phdr f hdr)).foldlM body a >>= fun a =>
          if hdr.phNum ≤ reach hdr then .ok a else .error .signedOverflow) := by
  induction n with
  | zero =>
    intro i a hi hn
    simp [forPhdrsFrom, show hdr.phNum ≤ reach hdr by omega]
  | succ n ih =>
    intro i a hi hn
    rw [forPhdrsFrom]
    by_cases hr : i < reach hdr
    · rw [phdrAtInt_eq h (by omega) hr, ok_bind,
        show min (n + 1) (reach hdr - i) = min n (reach hdr - (i + 1)) + 1 by omega,
        List.range'_succ, List.map_cons, List.foldlM_cons, bind_assoc]
      congr 1
      funext a'
      exact ih (i + 1) a' hr (by omega)
    · rw [phdrAtInt_overflow h hr, show min (n + 1) (reach hdr - i) = 0 by omega]
      simp [show ¬hdr.phNum ≤ reach hdr by omega]
      rfl

theorem forPhdrs_eq {α : Type} (h : TableOk f hdr) (body : α → Elf64Phdr → Load α) (a : α) :
    forPhdrs f hdr body a =
      (((phdrs f hdr).take (reach hdr)).foldlM body a >>= fun a =>
        if hdr.phNum ≤ reach hdr then .ok a else .error .signedOverflow) := by
  unfold forPhdrs
  rw [forPhdrsFrom_eq h body hdr.phNum 0 a (Nat.zero_le _) (Nat.zero_add _)]
  congr 2
  rw [phdrs, ← List.map_take, List.take_range, List.range_eq_range', Nat.sub_zero, Nat.min_comm]

/-- Where no product overflows, a loop over the headers is a fold over their list. -/
theorem forPhdrs_eq_foldlM {α : Type} (h : TableOk f hdr) (hr : hdr.phNum ≤ reach hdr)
    (body : α → Elf64Phdr → Load α) (a : α) :
    forPhdrs f hdr body a = (phdrs f hdr).foldlM body a := by
  rw [forPhdrs_eq h, List.take_of_length_le (by simpa [phdrs] using hr)]
  simp only [hr, if_true]
  exact bind_pure _

theorem findPhdrFrom_safely {α : Type} {at_ : Nat → Load Elf64Phdr}
    {body : Elf64Phdr → Load (Option α)} (post : α → Prop)
    (hat : ∀ i, i < hdr.phNum → at_ i = .ok (phdr f hdr i))
    (hbody : ∀ i, i < hdr.phNum → Safely (body (phdr f hdr i)) fun r => ∀ a, r = some a → post a)
    (n : Nat) : ∀ i, i + n = hdr.phNum →
      Safely (findPhdrFrom at_ body n i) fun r => ∀ a, r = some a → post a := by
  induction n with
  | zero =>
    intro i _ a ha
    cases ha
  | succ n ih =>
    intro i hn
    rw [findPhdrFrom, hat i (by omega), ok_bind]
    refine (hbody i (by omega)).bind fun r hr => ?_
    cases r with
    | some a => exact hr
    | none => exact ih (i + 1) (by omega)

theorem findPhdr_safely {α : Type} {at_ : Nat → Load Elf64Phdr} {body : Elf64Phdr → Load (Option α)}
    (post : α → Prop) (hat : ∀ i, i < hdr.phNum → at_ i = .ok (phdr f hdr i))
    (hbody : ∀ i, i < hdr.phNum → Safely (body (phdr f hdr i)) fun r => ∀ a, r = some a → post a) :
    Safely (findPhdr at_ hdr body) fun r => ∀ a, r = some a → post a :=
  findPhdrFrom_safely post hat hbody hdr.phNum 0 (Nat.zero_add _)

/-- `elf64_is_relocatable` computes the places with a `size_t` and never goes wrong. -/
theorem elf64IsRelocatable_safely (h : TableOk f hdr) :
    Safely (elf64IsRelocatable f hdr) fun _ => True := by
  unfold elf64IsRelocatable checkPhdrSize
  refine Safely.panicIf_bind fun _ => ?_
  by_cases hdyn : (hdr.type != etDyn) = true
  · rw [if_pos hdyn]
    exact trivial
  · rw [if_neg hdyn]
    refine (findPhdr_safely (fun _ => True) (fun i hi => phdrAt_eq h hi) fun i _ => ?_).bind
      fun r _ => ?_
    · generalize phdr f hdr i = p
      split
      · exact fun _ _ => trivial
      · split
        · exact trivial
        · exact fun _ _ => trivial
    · cases r with
      | none => exact trivial
      | some found => exact trivial

end

end Limine.Elf
