import Limine.Elf.Section
import Limine.Elf.Safety

/-!
# Executables at their physical addresses

`elf32_load_elsewhere` and `elf64_load_elsewhere` build the image of the segments in a buffer, for
somebody to move it to `p_paddr` later.  Both are `loadElsewhere`, at structures of their own widths.
-/

namespace Limine.Elf
open Limine.Loader Limine.Lib

/-! ## The two classes -/

/-- The fields of a program header that are looked at here. -/
structure ElsewherePhdr where
  type : Nat
  offset : Nat
  vaddr : Nat
  paddr : Nat
  filesz : Nat
  memsz : Nat
deriving DecidableEq, Repr

def elf32ElsewherePhdr (m : Nat → UInt8) (off : Nat) : ElsewherePhdr where
  type := leAt m off 4
  offset := leAt m (off + 4) 4
  vaddr := leAt m (off + 8) 4
  paddr := leAt m (off + 12) 4
  filesz := leAt m (off + 16) 4
  memsz := leAt m (off + 20) 4

def elf64ElsewherePhdr (m : Nat → UInt8) (off : Nat) : ElsewherePhdr where
  type := leAt m off 4
  offset := leAt m (off + 8) 8
  vaddr := leAt m (off + 16) 8
  paddr := leAt m (off + 24) 8
  filesz := leAt m (off + 32) 8
  memsz := leAt m (off + 40) 8

/-- `struct elf32_hdr`, whose fields have the names of those of `struct elf64_hdr`. -/
def elf32Hdr (m : Nat → UInt8) (off : Nat) : Elf64Hdr where
  ident := (List.range 16).map fun i => (m (off + i)).toNat
  type := leAt m (off + 16) 2
  machine := leAt m (off + 18) 2
  entry := leAt m (off + 24) 4
  phoff := leAt m (off + 28) 4
  shoff := leAt m (off + 32) 4
  phdrSize := leAt m (off + 42) 2
  phNum := leAt m (off + 44) 2
  shdrSize := leAt m (off + 46) 2

def elf32HdrSize : Nat := 52
def elf32PhdrSize : Nat := 32

def archX86_32 : Nat := 0x03

def elf32Validate (hdr : Elf64Hdr) : Load Unit := do
  panicIf (hdr.ident.take 4 != elfMagic) "elf: Not a valid ELF file."
  panicIf (hdr.ident.getD eiData 0 != bitsLe) "elf: Not a Little-endian ELF file."
  panicIf (hdr.machine != archX86_32) "elf: Not an IA-32 ELF file."
  panicIf (hdr.phoff % 4 != 0 || hdr.phdrSize % 4 != 0 || hdr.shoff % 4 != 0 || hdr.shdrSize % 4 != 0)
    "elf: Header table is not naturally aligned in the file"

/-- What the two loaders differ in; `width` is that of an address. -/
structure ElfClass where
  width : Nat
  hdrSize : Nat
  hdr : (Nat → UInt8) → Nat → Elf64Hdr
  validate : Elf64Hdr → Load Unit
  phdrSize : Nat
  phdr : (Nat → UInt8) → Nat → ElsewherePhdr
  phdrSizeMsg : String

def elf32Class : ElfClass where
  width := 32
  hdrSize := elf32HdrSize
  hdr := elf32Hdr
  validate := elf32Validate
  phdrSize := elf32PhdrSize
  phdr := elf32ElsewherePhdr
  phdrSizeMsg := "elf: phdr_size < sizeof(struct elf32_phdr)"

def elf64Class (arch : Arch) : ElfClass where
  width := 64
  hdrSize := elf64HdrSize
  hdr := elf64Hdr
  validate := elf64Validate arch
  phdrSize := elf64PhdrSize
  phdr := elf64ElsewherePhdr
  phdrSizeMsg := "elf: phdr_size < sizeof(struct elf64_phdr)"

/-! ## The source -/

structure ElsewhereArgs where
  alloc : Allocator
  maxImageSize : Nat
  /-- `SIZE_MAX` -/
  sizeMax : Nat

structure Elsewhere where
  entryPoint : Nat
  elsewhere : Nat
  target : Nat
  length : Nat
  /-- The bytes from `elsewhere` on. -/
  memory : Bytes

def ElsewherePhdr.loadable (phdr : ElsewherePhdr) : Bool := phdr.type == ptLoad && phdr.memsz != 0

section
variable (c : ElfClass) (f : File)

/-- `elf + (hdr->phoff + i * hdr->phdr_size)`: the product is an `int`, the sum as wide as `phoff`. -/
def elsewherePhdrAt (hdr : Elf64Hdr) (i : Nat) : Load ElsewherePhdr :=
  if 2 ^ 31 ≤ i * hdr.phdrSize then .error .signedOverflow
  else f.read ((hdr.phoff + i * hdr.phdrSize) % 2 ^ c.width) c.phdrSize c.phdr

/-- The loops over the headers, with `n` of them from `i` on still to come. -/
def forElsewhereFrom {α : Type} (hdr : Elf64Hdr) (body : α → ElsewherePhdr → Load α) : Nat → Nat → α → Load α
  | 0, _, a => .ok a
  | n + 1, i, a => do
    let phdr ← elsewherePhdrAt c f hdr i
    let a ← body a phdr
    forElsewhereFrom hdr body n (i + 1) a

def forElsewhere {α : Type} (hdr : Elf64Hdr) (body : α → ElsewherePhdr → Load α) (a : α) : Load α :=
  forElsewhereFrom c f hdr body hdr.phNum 0 a

/-- The first loop: `min_paddr`, `max_paddr` and `has_loadable`. -/
structure Extent where
  minPaddr : Nat := 2 ^ 64 - 1
  maxPaddr : Nat := 0
  hasLoadable : Bool := false
deriving DecidableEq, Repr

def extentStep (s : Extent) (phdr : ElsewherePhdr) : Load Extent :=
  if !phdr.loadable then .ok s
  else do
    let top ← orPanic "elf: p_paddr + p_memsz overflow" (checkedAdd phdr.paddr phdr.memsz)
    return {
      minPaddr := if phdr.paddr < s.minPaddr then phdr.paddr else s.minPaddr
      maxPaddr := if top > s.maxPaddr then top else s.maxPaddr
      hasLoadable := true }

/-- `memcpy` from the file into the buffer. -/
def copyElsewhere (imageSize : Nat) (m : Bytes) (dst src len : Nat) : Load Bytes :=
  if ¬src + len ≤ f.size then .error .fileBounds
  else if dst + len ≤ imageSize then .ok (overlay m dst len fun i => f.byte (src + i))
  else .error .imageBounds

/-- The second loop: the buffer, `*entry_point` and `entry_adjusted`. -/
structure Placing where
  memory : Bytes
  entryPoint : Nat
  entryAdjusted : Bool

/-- `CHECKED_ADD(phdr->p_vaddr, phdr->p_memsz, continue)` and the comparisons with it. -/
def entryInside (entryPoint : Nat) (phdr : ElsewherePhdr) : Bool :=
  phdr.vaddr + phdr.memsz < 2 ^ c.width && phdr.vaddr ≤ entryPoint && entryPoint < phdr.vaddr + phdr.memsz

def placeStep (minPaddr imageSize : Nat) (s : Placing) (phdr : ElsewherePhdr) : Load Placing :=
  if !phdr.loadable then .ok s
  else do
    panicIf (phdr.filesz > phdr.memsz) "elf: p_filesz > p_memsz"
    let offsetEnd ← orPanic "elf: p_offset + p_filesz overflow" (checkedAdd phdr.offset phdr.filesz)
    panicIf (offsetEnd > f.size) "elf: p_offset + p_filesz exceeds file size"
    let memory ← copyElsewhere f imageSize s.memory (sub64 phdr.paddr minPaddr) phdr.offset phdr.filesz
    if !s.entryAdjusted && entryInside c s.entryPoint phdr then
      return ⟨memory, add64 (sub64 s.entryPoint phdr.vaddr) phdr.paddr, true⟩
    else return { s with memory := memory }

/-- `sizeof(struct elsewhere_range)` -/
def sizeofElsewhereRange : Nat := 24

def loadElsewhere (args : ElsewhereArgs) : Load Elsewhere := do
  let hdr ← f.read 0 c.hdrSize c.hdr
  c.validate hdr
  panicIf (hdr.type != etExec && hdr.type != etDyn) "elf: ELF file not of type ET_EXEC nor ET_DYN"
  panicIf (hdr.phdrSize < c.phdrSize) c.phdrSizeMsg
  panicIf (hdr.phoff > f.size || hdr.phNum * hdr.phdrSize > f.size - hdr.phoff)
    "elf: Program header table extends beyond file bounds"
  let extent ← forElsewhere c f hdr extentStep {}
  panicIf (!extent.hasLoadable) "elf: No loadable segments"
  let imageSize := sub64 extent.maxPaddr extent.minPaddr
  panicIf (imageSize > args.maxImageSize) "elf: Image extent exceeds the load limit"
  panicIf (imageSize > args.sizeMax) "elf: Image size exceeds address space"
  let elsewhere ← extMemAlloc args.alloc imageSize
  panicIf (!args.alloc.table 0 sizeofElsewhereRange) "High memory allocator: Out of memory"
  let placing ← forElsewhere c f hdr (placeStep c f extent.minPaddr imageSize) ⟨fun _ => 0, hdr.entry, false⟩
  return ⟨placing.entryPoint, elsewhere.base, extent.minPaddr, imageSize, placing.memory⟩

end

def elf32LoadElsewhere (args : ElsewhereArgs) (f : File) : Load Elsewhere := loadElsewhere elf32Class f args

def elf64LoadElsewhere (arch : Arch) (args : ElsewhereArgs) (f : File) : Load Elsewhere :=
  loadElsewhere (elf64Class arch) f args

/-! ## What the image is -/

/-- The non-empty PT_LOAD headers, in the order of the table. -/
def elsewhereSegments (c : ElfClass) (f : File) : List ElsewherePhdr :=
  ((List.range (c.hdr f.byte 0).phNum).map fun i =>
    c.phdr f.byte ((c.hdr f.byte 0).phoff + i * (c.hdr f.byte 0).phdrSize)).filter ElsewherePhdr.loadable

/-- Zeros, overwritten by one segment after the other. -/
def imageOf (f : File) (target : Nat) (ps : List ElsewherePhdr) : Bytes :=
  ps.foldl (fun m p => overlay m (p.paddr - target) p.filesz fun i => f.byte (p.offset + i)) fun _ => 0

/-- The physical address of the entry point, by the first segment that has it. -/
def entryOf (c : ElfClass) (entry : Nat) (ps : List ElsewherePhdr) : Nat :=
  match ps.find? (entryInside c entry) with
  | some p => p.paddr + (entry - p.vaddr)
  | none => entry

/-- The image and the range that describes it. -/
structure BuiltElsewhere (c : ElfClass) (f : File) (ps : List ElsewherePhdr) (r : Elsewhere) : Prop where
  nonempty : ps ≠ []
  inside : ∀ p ∈ ps, r.target ≤ p.paddr ∧ p.paddr + p.memsz ≤ r.target + r.length ∧ p.filesz ≤ p.memsz ∧
    p.offset + p.filesz ≤ f.size
  lowest : ∃ p ∈ ps, p.paddr = r.target
  highest : ∃ p ∈ ps, p.paddr + p.memsz = r.target + r.length
  memory : r.memory = imageOf f r.target ps
  entryPoint : r.entryPoint = entryOf c (c.hdr f.byte 0).entry ps

/-- A run that returns, with `post`, panics, or comes to a header that no `int` product reaches. -/
abbrev Defined {α : Type} (x : Load α) (post : α → Prop) : Prop :=
  Ends (fun e => e.IsPanic ∨ e = .signedOverflow) x post

section
variable {α β : Type}

theorem Defined.of_safely {x : Load α} {post : α → Prop} (h : Safely x post) : Defined x post :=
  h.weaken fun _ => Or.inl

theorem Defined.panicIf_bind {refused : Bool} {msg : String} {k : Unit → Load β} {post : β → Prop}
    (h : refused = false → Defined (k ()) post) : Defined (panicIf refused msg >>= k) post := by
  cases refused with
  | true => exact Or.inl trivial
  | false => exact h rfl

theorem Defined.orPanic_bind {msg : String} {x : Option α} {k : α → Load β} {post : β → Prop}
    (h : ∀ a, x = some a → Defined (k a) post) : Defined (orPanic msg x >>= k) post := by
  cases x with
  | none => exact Or.inl trivial
  | some a => exact h a rfl

end

/-! ## The loops -/

section
variable {c : ElfClass} {f : File} {hdr : Elf64Hdr}

/-- The table lies in the file, each entry being large enough. -/
structure ElsewhereTable (c : ElfClass) (f : File) (hdr : Elf64Hdr) : Prop where
  size : c.phdrSize ≤ hdr.phdrSize
  fits : hdr.phoff + hdr.phNum * hdr.phdrSize ≤ f.size

/-- The headers as the loops see them: a place from 2 ^ `width` on is not reached. -/
def seenPhdr (c : ElfClass) (f : File) (hdr : Elf64Hdr) (i : Nat) : ElsewherePhdr :=
  c.phdr f.byte ((hdr.phoff + i * hdr.phdrSize) % 2 ^ c.width)

theorem elsewherePhdrAt_defined (ht : ElsewhereTable c f hdr) {i : Nat} (hi : i < hdr.phNum) :
    Defined (elsewherePhdrAt c f hdr i) fun p => p = seenPhdr c f hdr i := by
  unfold elsewherePhdrAt
  split
  · exact Or.inr rfl
  · have hsize := ht.size
    have hfits := ht.fits
    have hmul : (i + 1) * hdr.phdrSize ≤ hdr.phNum * hdr.phdrSize := Nat.mul_le_mul_right _ hi
    rw [Nat.succ_mul] at hmul
    have hmod : (hdr.phoff + i * hdr.phdrSize) % 2 ^ c.width ≤ hdr.phoff + i * hdr.phdrSize := Nat.mod_le _ _
    rw [File.read_eq (by omega)]
    rfl

/-- A loop over the headers passes over those that are not loaded. -/
theorem forElsewhere_defined {α : Type} (body : α → ElsewherePhdr → Load α) (a : α) (ht : ElsewhereTable c f hdr)
    (inv : List ElsewherePhdr → α → Prop) (hskip : ∀ a p, p.loadable = false → body a p = .ok a)
    (hstep : ∀ front p a, p ∈ ((List.range hdr.phNum).map (seenPhdr c f hdr)).filter ElsewherePhdr.loadable →
      p.loadable = true → inv front a → Defined (body a p) (inv (front ++ [p]))) (ha : inv [] a) :
    Defined (forElsewhere c f hdr body a)
      (inv (((List.range hdr.phNum).map (seenPhdr c f hdr)).filter ElsewherePhdr.loadable)) := by
  suffices h : ∀ n i a, i + n = hdr.phNum →
      inv (((List.range i).map (seenPhdr c f hdr)).filter ElsewherePhdr.loadable) a →
      Defined (forElsewhereFrom c f hdr body n i a)
        (inv (((List.range hdr.phNum).map (seenPhdr c f hdr)).filter ElsewherePhdr.loadable)) from
    h hdr.phNum 0 a (Nat.zero_add _) ha
  intro n
  induction n with
  | zero =>
    intro i a hi ha
    rw [← hi]
    exact ha
  | succ n ih =>
    intro i a hi ha
    rw [forElsewhereFrom]
    refine (elsewherePhdrAt_defined ht (by omega)).bind fun p hp => ?_
    subst hp
    have hnext : ((List.range (i + 1)).map (seenPhdr c f hdr)).filter ElsewherePhdr.loadable =
        ((List.range i).map (seenPhdr c f hdr)).filter ElsewherePhdr.loadable ++
          [seenPhdr c f hdr i].filter ElsewherePhdr.loadable := by
      rw [List.range_succ, List.map_append, List.filter_append]
      rfl
    cases hload : (seenPhdr c f hdr i).loadable with
    | false =>
      rw [hskip _ _ hload, ok_bind]
      refine ih (i + 1) a (by omega) ?_
      rw [hnext, List.filter_cons_of_neg (by simp [hload]), List.filter_nil, List.append_nil]
      exact ha
    | true =>
      have hmem : seenPhdr c f hdr i ∈ ((List.range hdr.phNum).map (seenPhdr c f hdr)).filter ElsewherePhdr.loadable :=
        List.mem_filter.mpr ⟨List.mem_map.mpr ⟨i, List.mem_range.mpr (by omega), rfl⟩, hload⟩
      refine (hstep _ _ a hmem hload ha).bind fun a' ha' => ih (i + 1) a' (by omega) ?_
      rw [hnext, List.filter_cons_of_pos hload, List.filter_nil]
      exact ha'

/-- What the first loop knows of the segments so far. -/
structure ExtentOf (ps : List ElsewherePhdr) (s : Extent) : Prop where
  inside : ∀ p ∈ ps, s.minPaddr ≤ p.paddr ∧ p.paddr + p.memsz ≤ s.maxPaddr
  lt : s.maxPaddr < 2 ^ 64
  found : ps = [] ∧ s = {} ∨ s.hasLoadable = true ∧ (∃ p ∈ ps, p.paddr = s.minPaddr) ∧
    ∃ p ∈ ps, p.paddr + p.memsz = s.maxPaddr

theorem ElsewherePhdr.loadable_memsz {p : ElsewherePhdr} (hp : p.loadable = true) : 0 < p.memsz := by
  unfold ElsewherePhdr.loadable at hp
  simp only [Bool.and_eq_true, bne_iff_ne] at hp
  omega

theorem extentStep_defined {ps : List ElsewherePhdr} {p : ElsewherePhdr} {s : Extent} (hp : p.loadable = true)
    (h : ExtentOf ps s) : Defined (extentStep s p) (ExtentOf (ps ++ [p])) := by
  have hpos := ElsewherePhdr.loadable_memsz hp
  unfold extentStep
  rw [hp]
  refine Defined.orPanic_bind fun top htop => ?_
  obtain ⟨hlt, rfl⟩ := checkedAdd_eq_some_iff.mp htop
  have hinside := h.inside
  refine ⟨?_, ?_, Or.inr ⟨rfl, ?_, ?_⟩⟩
  · intro q hq
    dsimp only
    rcases List.mem_append.mp hq with hq | hq
    · have := hinside q hq
      split <;> split <;> omega
    · rw [List.mem_singleton.mp hq]
      split <;> split <;> omega
  · have := h.lt
    dsimp only
    split <;> omega
  · dsimp only
    split
    · exact ⟨p, by simp, rfl⟩
    · next hge =>
      rcases h.found with ⟨-, rfl⟩ | ⟨-, ⟨q, hq, hmin⟩, -⟩
      · exact absurd (show p.paddr < 2 ^ 64 - 1 by omega) hge
      · exact ⟨q, List.mem_append_left _ hq, hmin⟩
  · dsimp only
    split
    · exact ⟨p, by simp, rfl⟩
    · next hge =>
      rcases h.found with ⟨-, rfl⟩ | ⟨-, -, q, hq, hmax⟩
      · exact absurd (show p.paddr + p.memsz > 0 by omega) hge
      · exact ⟨q, List.mem_append_left _ hq, hmax⟩

/-- What the second loop has done for the segments so far. -/
structure PlacedOf (c : ElfClass) (f : File) (entry target : Nat) (ps : List ElsewherePhdr) (s : Placing) : Prop where
  memory : s.memory = imageOf f target ps
  sizes : ∀ p ∈ ps, p.filesz ≤ p.memsz ∧ p.offset + p.filesz ≤ f.size
  entryPoint : s.entryPoint = entryOf c entry ps
  adjusted : s.entryAdjusted = (ps.find? (entryInside c entry)).isSome

theorem entryOf_append {entry : Nat} {ps : List ElsewherePhdr} {p : ElsewherePhdr} :
    entryOf c entry (ps ++ [p]) = if (ps.find? (entryInside c entry)).isSome = true then entryOf c entry ps
      else if entryInside c entry p = true then p.paddr + (entry - p.vaddr) else entry := by
  unfold entryOf
  rw [List.find?_append]
  cases hfind : ps.find? (entryInside c entry) with
  | some q => rfl
  | none =>
    cases hin : entryInside c entry p with
    | true => simp [hin]
    | false => simp [hin]

theorem imageOf_append (target : Nat) (ps : List ElsewherePhdr) (p : ElsewherePhdr) :
    imageOf f target (ps ++ [p]) = overlay (imageOf f target ps) (p.paddr - target) p.filesz
      fun i => f.byte (p.offset + i) := by
  unfold imageOf
  rw [List.foldl_append]
  rfl

theorem placeStep_defined (hw : c.width ≤ 64) {entry target imageSize : Nat} {ps : List ElsewherePhdr}
    {p : ElsewherePhdr} {s : Placing} (hp : p.loadable = true) (hlow : target ≤ p.paddr)
    (hhigh : p.paddr + p.memsz ≤ target + imageSize) (hlt : target + imageSize < 2 ^ 64)
    (h : PlacedOf c f entry target ps s) :
    Defined (placeStep c f target imageSize s p) (PlacedOf c f entry target (ps ++ [p])) := by
  unfold placeStep
  rw [hp]
  refine Defined.panicIf_bind fun hfilesz => ?_
  refine Defined.orPanic_bind fun offsetEnd hoffset => ?_
  refine Defined.panicIf_bind fun hfile => ?_
  obtain ⟨-, rfl⟩ := checkedAdd_eq_some_iff.mp hoffset
  simp only [decide_eq_false_iff_not, Nat.not_lt] at hfilesz hfile
  have hcopy : copyElsewhere f imageSize s.memory (sub64 p.paddr target) p.offset p.filesz =
      .ok (imageOf f target (ps ++ [p])) := by
    unfold copyElsewhere
    rw [sub64_eq hlow (by omega), if_neg (by omega), if_pos (by omega), imageOf_append, h.memory]
  have hsizes : ∀ q ∈ ps ++ [p], q.filesz ≤ q.memsz ∧ q.offset + q.filesz ≤ f.size :=
    forall_mem_concat h.sizes ⟨hfilesz, hfile⟩
  have hfind : ((ps ++ [p]).find? (entryInside c entry)).isSome =
      ((ps.find? (entryInside c entry)).isSome || entryInside c entry p) := by
    rw [List.find?_append]
    cases ps.find? (entryInside c entry) with
    | some q => rfl
    | none => cases hin : entryInside c entry p <;> simp [hin]
  rw [hcopy, ok_bind]
  -- the entry point is looked up until a segment has it
  cases hadj : s.entryAdjusted with
  | true =>
    have hsome := h.adjusted
    rw [hadj] at hsome
    refine ⟨rfl, hsizes, ?_, ?_⟩
    · rw [entryOf_append, if_pos hsome.symm]
      exact h.entryPoint
    · rw [hfind, ← hsome]
      rfl
  | false =>
    have hnone := h.adjusted
    rw [hadj] at hnone
    have hentry : s.entryPoint = entry := by
      rw [h.entryPoint, entryOf]
      cases hq : ps.find? (entryInside c entry) with
      | none => rfl
      | some q =>
        rw [hq] at hnone
        cases hnone
    rw [hentry]
    cases hin : entryInside c entry p with
    | true =>
      have hpow : 2 ^ c.width ≤ 2 ^ 64 := Nat.pow_le_pow_right (by decide) hw
      have hbounds := hin
      unfold entryInside at hbounds
      simp only [Bool.and_eq_true, decide_eq_true_eq] at hbounds
      obtain ⟨⟨hend, hge⟩, hle⟩ := hbounds
      refine ⟨rfl, hsizes, ?_, ?_⟩
      · rw [entryOf_append, ← hnone, if_neg (by decide), if_pos hin]
        show add64 (sub64 entry p.vaddr) p.paddr = _
        rw [sub64_eq hge (by omega), add64_eq (by omega), Nat.add_comm]
      · rw [hfind, ← hnone, hin]
        rfl
    | false =>
      refine ⟨rfl, hsizes, ?_, ?_⟩
      · rw [entryOf_append, ← hnone, if_neg (by decide), hin, if_neg (by decide)]
      · rw [hfind, ← hnone, hin]
        rfl

/-! ## The whole function -/

theorem isPanic_of_extMemAlloc {alloc : Allocator} {count : Nat} {e : Fault}
    (h : extMemAlloc alloc count = .error e) : e.IsPanic := by
  unfold extMemAlloc at h
  dsimp only at h
  generalize alignUp (if count = 0 then 1 else count) 4096 = rounded at h
  cases rounded with
  | none =>
    cases h
    trivial
  | some size =>
    have hsafe := imageMemory_safely alloc size 4096
    change imageMemory alloc size 4096 = .error e at h
    rw [h] at hsafe
    exact hsafe

/-- Where the table ends in reach of the header's own width, its headers are the ones that are seen. -/
theorem elsewhereSegments_eq (ht : ElsewhereTable c f (c.hdr f.byte 0)) (hpos : 0 < c.phdrSize)
    (hplaced : (c.hdr f.byte 0).phoff + (c.hdr f.byte 0).phNum * (c.hdr f.byte 0).phdrSize ≤ 2 ^ c.width) :
    ((List.range (c.hdr f.byte 0).phNum).map (seenPhdr c f (c.hdr f.byte 0))).filter ElsewherePhdr.loadable =
      elsewhereSegments c f := by
  unfold elsewhereSegments
  congr 1
  refine List.map_congr_left fun i hi => ?_
  have hsize := ht.size
  have hmul : (i + 1) * (c.hdr f.byte 0).phdrSize ≤ (c.hdr f.byte 0).phNum * (c.hdr f.byte 0).phdrSize :=
    Nat.mul_le_mul_right _ (List.mem_range.mp hi)
  rw [Nat.succ_mul] at hmul
  unfold seenPhdr
  rw [Nat.mod_eq_of_lt (by omega)]

theorem loadElsewhere_defined (args : ElsewhereArgs) (hw : c.width ≤ 64) (hpos : 0 < c.phdrSize)
    (hvalidate : ∀ hdr, Safely (c.validate hdr) fun _ => True) (hsize : c.hdrSize ≤ f.size) :
    Defined (loadElsewhere c f args) fun r => f.size ≤ 2 ^ c.width ∨
      (c.hdr f.byte 0).phoff + (c.hdr f.byte 0).phNum * (c.hdr f.byte 0).phdrSize ≤ 2 ^ c.width →
        BuiltElsewhere c f (elsewhereSegments c f) r := by
  unfold loadElsewhere
  rw [File.read_eq (by omega), ok_bind]
  refine (Defined.of_safely (hvalidate _)).bind fun _ _ => ?_
  refine Defined.panicIf_bind fun _ => ?_
  refine Defined.panicIf_bind fun hphdr => ?_
  refine Defined.panicIf_bind fun htable => ?_
  simp only [decide_eq_false_iff_not, Nat.not_lt] at hphdr
  simp only [Bool.or_eq_false_iff, decide_eq_false_iff_not, Nat.not_lt] at htable
  have ht : ElsewhereTable c f (c.hdr f.byte 0) := ⟨hphdr, by omega⟩
  generalize hseen : ((List.range (c.hdr f.byte 0).phNum).map (seenPhdr c f (c.hdr f.byte 0))).filter
    ElsewherePhdr.loadable = ps
  have hextent := forElsewhere_defined extentStep {} ht ExtentOf
    (fun a p hp => by unfold extentStep; rw [hp]; rfl)
    (fun front p a _ hp ha => extentStep_defined hp ha) ⟨by simp, by decide, Or.inl ⟨rfl, rfl⟩⟩
  rw [hseen] at hextent
  refine hextent.bind fun extent hext => ?_
  refine Defined.panicIf_bind fun hloadable => ?_
  dsimp only
  obtain ⟨-, ⟨plow, hplow, hlow⟩, phigh, hphigh, hhigh⟩ : _ ∧ _ ∧ _ := hext.found.resolve_left fun hnone => by
    rw [hnone.2] at hloadable
    cases hloadable
  have hlt := hext.lt
  have hle : extent.minPaddr ≤ extent.maxPaddr := by
    have := hext.inside plow hplow
    omega
  rw [sub64_eq hle hlt]
  refine Defined.panicIf_bind fun _ => ?_
  refine Defined.panicIf_bind fun _ => ?_
  rcases halloc : extMemAlloc args.alloc (extent.maxPaddr - extent.minPaddr) with e | elsewhere
  · exact Or.inl (isPanic_of_extMemAlloc halloc)
  rw [ok_bind]
  refine Defined.panicIf_bind fun _ => ?_
  have hplacing := forElsewhere_defined (placeStep c f extent.minPaddr (extent.maxPaddr - extent.minPaddr))
    ⟨fun _ => 0, (c.hdr f.byte 0).entry, false⟩ ht (PlacedOf c f (c.hdr f.byte 0).entry extent.minPaddr)
    (fun a p hp => by unfold placeStep; rw [hp]; rfl)
    (fun front p a hmem hp ha => by
      rw [hseen] at hmem
      have hin := hext.inside p hmem
      exact placeStep_defined hw hp hin.1 (by omega) (by omega) ha) ⟨rfl, by simp, rfl, rfl⟩
  rw [hseen] at hplacing
  refine hplacing.bind fun placing hplaced hreach => ?_
  rw [elsewhereSegments_eq ht hpos (hreach.elim (Nat.le_trans ht.fits) id)] at hseen
  rw [hseen]
  refine ⟨List.ne_nil_of_mem hplow, fun p hp => ?_, ⟨plow, hplow, hlow⟩, ⟨phigh, hphigh, ?_⟩, hplaced.memory,
    hplaced.entryPoint⟩
  · have hin := hext.inside p hp
    have hsizes := hplaced.sizes p hp
    dsimp only
    omega
  · dsimp only
    omega

theorem elf32Validate_safely (hdr : Elf64Hdr) : Safely (elf32Validate hdr) fun _ => True := by
  unfold elf32Validate
  refine Safely.panicIf_bind fun _ => ?_
  refine Safely.panicIf_bind fun _ => ?_
  refine Safely.panicIf_bind fun _ => ?_
  unfold panicIf
  split
  · exact Safely.panic
  · trivial

end

/-- A run that returns has read the file alone, has written the image alone, and has built it; in an
ELF32 file the table lies in the first 4 GiB. -/
theorem elfLoadElsewhere_built (args : ElsewhereArgs) :
    (∀ f : File, elf32HdrSize ≤ f.size → Defined (elf32LoadElsewhere args f) fun r =>
      (elf32Hdr f.byte 0).phoff + (elf32Hdr f.byte 0).phNum * (elf32Hdr f.byte 0).phdrSize ≤ 2 ^ 32 →
        BuiltElsewhere elf32Class f (elsewhereSegments elf32Class f) r) ∧
    ∀ (arch : Arch) (f : File), elf64HdrSize ≤ f.size → Defined (elf64LoadElsewhere arch args f)
      (BuiltElsewhere (elf64Class arch) f (elsewhereSegments (elf64Class arch) f)) := by
  refine ⟨fun f hsize => ?_, fun arch f hsize => ?_⟩
  · exact (loadElsewhere_defined args (by decide) (by decide) elf32Validate_safely hsize).imp fun r h hplaced =>
      h (Or.inr hplaced)
  · have h := loadElsewhere_defined (c := elf64Class arch) args (Nat.le_refl _) (by show 0 < elf64PhdrSize; decide)
      (elf64Validate_safely arch) hsize
    exact h.imp fun r h => h (Or.inl (Nat.le_of_lt f.size_lt))

/-! ## An entry point at the end of the address space -/

def elsewhereWords (vaddr : Nat) : List Nat :=
  [0x464c457f, 0x00010101, 0, 0, archX86_32 * 2 ^ 16 + etExec, 1, vaddr + 0x800, 52, 0, 0, 32 * 2 ^ 16 + 52, 1, 0] ++
    [ptLoad, 84, vaddr, 0x100000, 4, 0x1000, 5, 4] ++ [0x12345678]

/-- An ELF32 file with one segment of a page, in whose middle the entry point is. -/
def elsewhereElf (vaddr : Nat) : File :=
  ⟨4 * (elsewhereWords vaddr).length, by simp [elsewhereWords],
    fun i => UInt8.ofNat ((elsewhereWords vaddr).getD (i / 4) 0 >>> (8 * (i % 4)))⟩

def elsewhereArgs : ElsewhereArgs := ⟨plainAlloc, 0x10000, 2 ^ 64 - 1⟩

def pageSegment (vaddr : Nat) : ElsewherePhdr := ⟨ptLoad, 84, vaddr, 0x100000, 4, 0x1000⟩

theorem elsewhereElf_runs (vaddr entryPoint : Nat)
    (hrun : (elf32LoadElsewhere elsewhereArgs (elsewhereElf vaddr)).map Elsewhere.entryPoint = .ok entryPoint) :
    ∃ r, elf32LoadElsewhere elsewhereArgs (elsewhereElf vaddr) = .ok r ∧ r.entryPoint = entryPoint := by
  cases hload : elf32LoadElsewhere elsewhereArgs (elsewhereElf vaddr) with
  | error e =>
    rw [hload] at hrun
    cases hrun
  | ok r =>
    rw [hload] at hrun
    exact ⟨r, rfl, Except.ok.inj hrun⟩

theorem elfLoadElsewhere_built_page : ∃ r, elf32LoadElsewhere elsewhereArgs (elsewhereElf 0xffffe000) = .ok r ∧
    BuiltElsewhere elf32Class (elsewhereElf 0xffffe000) [pageSegment 0xffffe000] r ∧
    Defined (elf64LoadElsewhere .x86_64 elsewhereArgs smallElf)
      (BuiltElsewhere (elf64Class .x86_64) smallElf (elsewhereSegments (elf64Class .x86_64) smallElf)) := by
  obtain ⟨r, hload, -⟩ := elsewhereElf_runs 0xffffe000 0x100800 (by decide)
  have hbuilt := (elfLoadElsewhere_built elsewhereArgs).1 (elsewhereElf 0xffffe000) (by decide)
  have hsegments : elsewhereSegments elf32Class (elsewhereElf 0xffffe000) = [pageSegment 0xffffe000] := by
    decide
  rw [hload] at hbuilt
  refine ⟨r, hload, ?_, (elfLoadElsewhere_built elsewhereArgs).2 .x86_64 smallElf (by decide)⟩
  rw [← hsegments]
  exact hbuilt (by decide)

/-- The segment ends with the address space, and so the address of the entry point stays virtual. -/
theorem elf32LoadElsewhere_last_page : ∃ r, elf32LoadElsewhere elsewhereArgs (elsewhereElf 0xfffff000) = .ok r ∧
    elsewhereSegments elf32Class (elsewhereElf 0xfffff000) = [pageSegment 0xfffff000] ∧
    (pageSegment 0xfffff000).vaddr ≤ (elf32Hdr (elsewhereElf 0xfffff000).byte 0).entry ∧
    (elf32Hdr (elsewhereElf 0xfffff000).byte 0).entry <
      (pageSegment 0xfffff000).vaddr + (pageSegment 0xfffff000).memsz ∧
    r.entryPoint ≠ (pageSegment 0xfffff000).paddr +
      ((elf32Hdr (elsewhereElf 0xfffff000).byte 0).entry - (pageSegment 0xfffff000).vaddr) := by
  obtain ⟨r, hload, hentry⟩ := elsewhereElf_runs 0xfffff000 0xfffff800 (by decide)
  refine ⟨r, hload, by decide, by decide, by decide, ?_⟩
  rw [hentry]
  decide

end Limine.Elf
