import Limine.Elf.Segments

/-!
# Copying and relocating

What the loop over the segments does to the image, as functions on memory: it stays inside the
memory of the segment at hand, provided the segments are laid out and the relocations prepared.
-/

namespace Limine.Elf
open Limine.Loader Limine.Lib

/-- The eight bytes a relocation is for lie in the `size` bytes at `vaddr`. -/
def Elf64Rela.Inside (r : Elf64Rela) (vaddr size : Nat) : Prop :=
  vaddr ≤ r.addr ∧ r.addr + 8 ≤ vaddr + size

instance (r : Elf64Rela) (vaddr size : Nat) : Decidable (r.Inside vaddr size) := by
  unfold Elf64Rela.Inside
  infer_instance

def leByte (v i : Nat) : UInt8 := UInt8.ofNat (v >>> (8 * i))

/-- The memory after an effect on the eight bytes at `ptr`. -/
def Effect.on (e : Effect) (m : Bytes) (ptr : Nat) : Bytes :=
  match e with
  | .keep => m
  | .store v => overlay m ptr 8 (leByte v)
  | .add v => overlay m ptr 8 (leByte (add64 (leAt m ptr 8) v))

theorem Effect.on_of_not_mem (e : Effect) (m : Bytes) {ptr x : Nat} (h : x < ptr ∨ ptr + 8 ≤ x) :
    e.on m ptr x = m x := by
  cases e with
  | keep => rfl
  | store v => exact overlay_of_not_mem h
  | add v => exact overlay_of_not_mem h

/-- An effect depends on the eight bytes it changes only. -/
theorem Effect.on_congr (e : Effect) {m m' : Bytes} {ptr ptr' : Nat}
    (h : ∀ i, i < 8 → m (ptr + i) = m' (ptr' + i)) {i : Nat} (hi : i < 8) :
    e.on m ptr (ptr + i) = e.on m' ptr' (ptr' + i) := by
  have hle : leAt m ptr 8 = leAt m' ptr' 8 := by
    unfold leAt
    congr 1
    exact List.map_congr_left fun i hi => h i (List.mem_range.mp hi)
  cases e with
  | keep => exact h i hi
  | store v =>
    show overlay m ptr 8 _ _ = overlay m' ptr' 8 _ _
    rw [overlay_of_mem (by omega) (by omega), overlay_of_mem (by omega) (by omega),
      Nat.add_sub_cancel_left, Nat.add_sub_cancel_left]
  | add v =>
    show overlay m ptr 8 _ _ = overlay m' ptr' 8 _ _
    rw [overlay_of_mem (by omega) (by omega), overlay_of_mem (by omega) (by omega),
      Nat.add_sub_cancel_left, Nat.add_sub_cancel_left, hle]

theorem applyEffect_eq {reg : Region} {ptr : Nat} (h : reg.Has ptr 8) (m : Bytes) (e : Effect) :
    applyEffect reg m ptr e = .ok (e.on m ptr) := by
  cases e with
  | keep => rfl
  | store v => exact storeNat_eq h
  | add v =>
    show (loadNat reg m ptr 8 >>= fun old => storeNat reg m ptr 8 (add64 old v)) = _
    rw [loadNat_eq h, ok_bind]
    exact storeNat_eq h

section
variable {arch : Arch} {f : File} {st : SymTables} {slide : Nat}

theorem relocSymbol_safely (hsym : st.symtabOffset + st.symtabSize ≤ f.size)
    (hstr : st.strtabOffset + st.strtabSize ≤ f.size) (symbol : Nat) :
    Safely (relocSymbol f st symbol) fun _ => True := by
  unfold relocSymbol
  refine Safely.panicIf_bind fun _ => ?_
  refine Safely.panicIf_bind fun _ => ?_
  refine Safely.orPanic_bind fun symOffset _ => ?_
  refine Safely.panicIf_bind fun hin => ?_
  simp only [Bool.or_eq_false_iff, decide_eq_false_iff_not] at hin
  unfold elf64SymSize at hin ⊢
  rw [File.read_eq (by omega), ok_bind]
  generalize elf64Sym f.byte (st.symtabOffset + symOffset) = s
  by_cases hundef : s.shndx = shnUndef
  · rw [if_pos hundef]
    by_cases hweak : s.info >>> 4 = stbWeak
    · rw [if_pos hweak]
      trivial
    · rw [if_neg hweak]
      refine Safely.panicIf_bind fun _ => ?_
      refine Safely.panicIf_bind fun hname => ?_
      simp only [decide_eq_false_iff_not] at hname
      rw [File.read_eq (by omega)]
      exact Safely.panic
  · rw [if_neg hundef]
    trivial

theorem relocEffect_safely (hsym : st.symtabOffset + st.symtabSize ≤ f.size)
    (hstr : st.strtabOffset + st.strtabSize ≤ f.size) (r : Elf64Rela) :
    Safely (relocEffect arch f st slide r) fun _ => True := by
  unfold relocEffect
  cases relocKind arch r.info with
  | none => exact Safely.panic
  | some kind =>
    cases kind with
    | none => trivial
    | relative => trivial
    | internalRelr => trivial
    | symbol withAddend =>
      refine (relocSymbol_safely hsym hstr r.symbol).bind fun s _ => ?_
      cases s with
      | none => trivial
      | some s => trivial

/-- The effect of a relocation that has one. -/
def effectOf (arch : Arch) (f : File) (st : SymTables) (slide : Nat) (r : Elf64Rela) : Effect :=
  match relocEffect arch f st slide r with
  | .ok e => e
  | .error _ => .keep

/-- The memory after a relocation for one of the places `inside` says, with `place` its address. -/
def relocate (arch : Arch) (f : File) (st : SymTables) (slide : Nat) (inside : Elf64Rela → Bool)
    (place : Nat → Nat) (m : Bytes) (r : Elf64Rela) : Bytes :=
  if inside r then (effectOf arch f st slide r).on m (place r.addr) else m

/-- A relocation inside a segment is applied at its place, and no other is. -/
theorem applyReloc_eq {reg : Region} {buffer vaddr size : Nat} (hv : vaddr + size < 2 ^ 64)
    (hb : reg.Has buffer size) (m : Bytes) (r : Elf64Rela) :
    applyReloc arch f st reg buffer vaddr size slide m r =
      if r.Inside vaddr size then
        relocEffect arch f st slide r >>= fun e => .ok (e.on m (buffer + (r.addr - vaddr)))
      else .ok m := by
  have hfits := reg.fits
  obtain ⟨hb1, hb2⟩ := hb
  unfold applyReloc
  rw [add64_eq hv]
  by_cases hbefore : r.addr < vaddr
  · have hout : ¬r.Inside vaddr size := fun h => absurd h.1 (by omega)
    rw [if_pos hbefore, if_neg hout]
  · rw [if_neg hbefore]
    by_cases hsmall : size < 8
    · have hout : ¬r.Inside vaddr size := fun h => by
        have := h.2
        omega
      rw [if_pos (Or.inl hsmall), if_neg hout]
    · rw [sub64_eq (by omega) hv]
      by_cases hafter : r.addr > vaddr + size - 8
      · have hout : ¬r.Inside vaddr size := fun h => absurd h.2 (by omega)
        rw [if_pos (Or.inr hafter), if_neg hout]
      · have hin : r.Inside vaddr size := ⟨by omega, by omega⟩
        rw [if_neg (by omega), if_pos hin, sub64_eq (by omega) (by omega), add64_eq (by omega)]
        congr 1
        funext e
        exact applyEffect_eq ⟨by omega, by omega⟩ m e

/-- What one call of `elf64_apply_relocations` does: the relocations inside have an effect. -/
structure Applied (arch : Arch) (f : File) (st : SymTables) (slide : Nat) (table : List Elf64Rela)
    (buffer vaddr size : Nat) (m m' : Bytes) : Prop where
  ok : ∀ r ∈ table, r.Inside vaddr size → ∃ e, relocEffect arch f st slide r = .ok e
  eq : m' = table.foldl
    (relocate arch f st slide (fun r => r.Inside vaddr size) fun a => buffer + (a - vaddr)) m

theorem applied_foldlM {reg : Region} {buffer vaddr size : Nat} (hv : vaddr + size < 2 ^ 64)
    (hb : reg.Has buffer size) (hsym : st.symtabOffset + st.symtabSize ≤ f.size)
    (hstr : st.strtabOffset + st.strtabSize ≤ f.size) (table : List Elf64Rela) (m : Bytes) :
    Safely (table.foldlM (applyReloc arch f st reg buffer vaddr size slide) m)
      (Applied arch f st slide table buffer vaddr size m) := by
  refine Ends.foldlM (fun front => Applied arch f st slide front buffer vaddr size m) ?_
    ⟨by simp, rfl⟩
  rintro front r rest m' - ⟨hok, rfl⟩
  rw [applyReloc_eq hv hb]
  by_cases hin : r.Inside vaddr size
  · rw [if_pos hin]
    refine (relocEffect_safely hsym hstr r).and_eq.bind fun e he => ?_
    refine ⟨forall_mem_concat hok fun _ => ⟨e, he.1⟩, ?_⟩
    rw [List.foldl_append, List.foldl_cons, List.foldl_nil]
    generalize front.foldl _ m = m'
    unfold relocate effectOf
    rw [if_pos (by simpa using hin), he.1]
  · rw [if_neg hin]
    refine ⟨forall_mem_concat hok fun h => absurd h hin, ?_⟩
    rw [List.foldl_append, List.foldl_cons, List.foldl_nil]
    generalize front.foldl _ m = m'
    unfold relocate
    rw [if_neg (by simpa using hin)]

end

/-! ## The array as a list -/

theorem derefReloc_eq {f : File} {st : RelocState} {table : List Elf64Rela} (h : Prepared f st table)
    {i : Nat} (hi : i < table.length) : derefReloc f st i = .ok table[i] := by
  have hlen := h.ptrs.length_eq
  have hget := h.ptrs.get (by omega : i < st.relocs.length) hi
  unfold derefReloc
  rw [List.getElem?_eq_getElem (by omega)]
  exact hget

theorem applyFrom_eq {arch : Arch} {f : File} {st : RelocState} {reg : Region}
    {buffer vaddr size slide : Nat} {table : List Elf64Rela} (h : Prepared f st table) (n : Nat) :
    ∀ (i : Nat) (m : Bytes), i + n = table.length →
      applyFrom arch f st reg buffer vaddr size slide n i m =
        (table.drop i).foldlM (applyReloc arch f st.toSymTables reg buffer vaddr size slide) m := by
  induction n with
  | zero =>
    intro i m hi
    rw [List.drop_of_length_le (by omega)]
    rfl
  | succ n ih =>
    intro i m hi
    have hlt : i < table.length := by omega
    rw [applyFrom, derefReloc_eq h hlt, ok_bind, List.drop_eq_getElem_cons hlt, List.foldlM_cons]
    congr 1
    funext m'
    exact ih (i + 1) m' (by omega)

theorem elf64ApplyRelocations_safely {arch : Arch} {f : File} {st : RelocState} {reg : Region}
    {buffer vaddr size slide : Nat} {table : List Elf64Rela} (h : Prepared f st table)
    (hv : vaddr + size < 2 ^ 64) (hb : reg.Has buffer size) (m : Bytes) :
    Safely (elf64ApplyRelocations arch f st reg buffer vaddr size slide m)
      (Applied arch f st.toSymTables slide table buffer vaddr size m) := by
  unfold elf64ApplyRelocations
  rw [applyFrom_eq h st.relocsI 0 m (by rw [h.count, Nat.zero_add])]
  exact applied_foldlM hv hb h.symtab h.strtab table m

/-! ## One segment -/

/-- A segment lies in the image whose lowest address is `vbase`. -/
structure InImage (reg : Region) (vbase : Nat) (p : Elf64Phdr) : Prop where
  lt : p.top < 2 ^ 64
  low : vbase ≤ p.vaddr
  high : p.top ≤ vbase + reg.size

/-- The bytes of the file that a segment has. -/
def copySegment (f : File) (place : Nat → Nat) (m : Bytes) (p : Elf64Phdr) : Bytes :=
  overlay m (place p.vaddr) p.filesz fun i => f.byte (p.offset + i)

/-- What the loop over the segments does for one of them. -/
structure SegmentLoaded (arch : Arch) (f : File) (st : SymTables) (slide : Nat) (table : List Elf64Rela)
    (place : Nat → Nat) (p : Elf64Phdr) (m m' : Bytes) : Prop where
  filesz : p.filesz ≤ p.memsz
  inFile : p.offset + p.filesz ≤ f.size
  applied : Applied arch f st slide table (place p.vaddr) p.vaddr p.memsz (copySegment f place m p) m'

theorem segmentStep_safely {arch : Arch} {f : File} {st : RelocState} {reg : Region}
    {maxVaddr vbase slide : Nat} {table : List Elf64Rela} (h : Prepared f st table) {p : Elf64Phdr}
    (hp : p.loadable = true) (hin : InImage reg vbase p) (acc : Bytes × Nat) :
    Safely (segmentStep arch f st reg maxVaddr vbase slide acc p) fun acc' =>
      SegmentLoaded arch f st.toSymTables slide table (fun a => reg.base + (a - vbase)) p acc.1 acc'.1 := by
  obtain ⟨hlt, hlow, hhigh⟩ := hin
  have hfits := reg.fits
  have hmem := Elf64Phdr.loadable_memsz hp
  unfold Elf64Phdr.top at hlt hhigh
  have hload : add64 reg.base (sub64 p.vaddr vbase) = reg.base + (p.vaddr - vbase) := by
    rw [sub64_eq hlow (by omega), add64_eq (by omega)]
  unfold segmentStep
  rw [hp]
  refine Safely.panicIf_bind fun hfilesz => ?_
  refine Safely.orPanic_bind fun offsetEnd hend => ?_
  refine Safely.panicIf_bind fun hfile => ?_
  obtain ⟨-, rfl⟩ := checkedAdd_eq_some_iff.mp hend
  simp only [decide_eq_false_iff_not] at hfilesz hfile
  rw [hload]
  refine Safely.orPanic_bind fun thisTop _ => ?_
  have hhas : reg.Has (reg.base + (p.vaddr - vbase)) p.memsz := ⟨by omega, by omega⟩
  rw [memcpy_eq (by omega) ⟨by omega, by omega⟩, ok_bind]
  refine (elf64ApplyRelocations_safely h (by omega) hhas _).bind fun m' hm' => ?_
  exact ⟨by omega, by omega, hm'⟩

end Limine.Elf
