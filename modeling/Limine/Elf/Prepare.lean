import Limine.Elf.Relocations
import Mathlib.Data.List.Forall2

/-!
# What `elf64_prepare_relocations` prepares

Every table the dynamic section names lies in the file, or the function fails.  The array then
holds a pointer for each relocation of `relocTable`: the addresses that DT_RELR stands for, the
entries of DT_RELA and those of DT_JMPREL, in this order.
-/

namespace Limine.Elf
open Limine.Loader Limine.Lib

section
variable {f : File} {hdr : Elf64Hdr}

/-! ## Where the tables are -/

theorem dynamicEntry_safely (d : Dynamic) (dyn : Elf64Dyn) : Safely (dynamicEntry d dyn) fun _ => True := by
  unfold dynamicEntry
  split
  case h_9 => split <;> trivial
  all_goals trivial

theorem dynamicEntries_safely {offset : Nat} (n : Nat) : ∀ (j : Nat) (d : Dynamic),
    offset + (j + n) * elf64DynSize ≤ f.size → Safely (dynamicEntries f offset n j d) fun _ => True := by
  induction n with
  | zero =>
    intro j d _
    trivial
  | succ n ih =>
    intro j d h
    have hlt := f.size_lt
    unfold elf64DynSize at h ih
    rw [dynamicEntries, elf64DynSize, add64_eq (by omega), File.read_eq (by omega), ok_bind]
    generalize elf64Dyn f.byte (offset + j * 16) = dyn
    refine (dynamicEntry_safely d dyn).bind fun r _ => ?_
    cases r with
    | none => trivial
    | some d => exact ih (j + 1) d (by omega)

theorem dynamicSection_safely (h : TableOk f hdr) (hr : hdr.phNum ≤ reach hdr) :
    Safely (dynamicSection f hdr) fun _ => True := by
  unfold dynamicSection
  refine (findPhdr_safely (fun _ => True)
    (fun i hi => phdrAtInt_eq h hi (Nat.lt_of_lt_of_le hi hr)) fun i _ => ?_).bind fun _ _ => trivial
  generalize phdr f hdr i = p
  split
  · exact fun _ _ => trivial
  · cases htop : checkedAdd p.offset p.filesz with
    | none => exact fun _ _ => trivial
    | some top =>
      obtain ⟨hlt, rfl⟩ := checkedAdd_eq_some_iff.mp htop
      show Safely (if _ then _ else _) _
      split
      · exact fun _ _ => trivial
      · next hin =>
        have hdiv := Nat.div_mul_le_self p.filesz elf64DynSize
        refine (dynamicEntries_safely _ 0 _ ?_).bind fun _ _ _ _ => trivial
        rw [Nat.zero_add]
        omega

/-- A translated address, the table of `sizeHint` bytes there and the rest of its segment lie in the
file. -/
theorem elf64TranslateVaddr_safely (h : TableOk f hdr) (hr : hdr.phNum ≤ reach hdr)
    (offset sizeHint : Nat) :
    Safely (elf64TranslateVaddr f hdr offset sizeHint) fun r => ∀ o s, r = some (o, s) →
      o + sizeHint ≤ f.size ∧ o + s ≤ f.size := by
  unfold elf64TranslateVaddr
  refine (findPhdr_safely (fun r : Option (Nat × Nat) => ∀ o s, r = some (o, s) →
      o + sizeHint ≤ f.size ∧ o + s ≤ f.size)
    (fun i hi => phdrAtInt_eq h hi (Nat.lt_of_lt_of_le hi hr)) fun i _ => ?_).bind fun r hfound => ?_
  · generalize phdr f hdr i = p
    cases hend : checkedAdd p.vaddr p.filesz with
    | none =>
      intro a ha
      cases ha
    | some segEnd =>
      obtain ⟨hlt, rfl⟩ := checkedAdd_eq_some_iff.mp hend
      show Safely (if _ then _ else _) _
      split
      · next hin =>
        cases htop : checkedAdd p.offset p.filesz with
        | none => rintro a ⟨⟩ o s ⟨⟩
        | some top =>
          obtain ⟨hlt', rfl⟩ := checkedAdd_eq_some_iff.mp htop
          have h1 : sub64 offset p.vaddr = offset - p.vaddr := sub64_eq hin.1 (by omega)
          have h2 : sub64 p.filesz (offset - p.vaddr) = p.filesz - (offset - p.vaddr) :=
            sub64_eq (by omega) (by omega)
          have h3 : add64 (offset - p.vaddr) p.offset = offset - p.vaddr + p.offset :=
            add64_eq (by omega)
          simp only [h1, h2, h3]
          split
          · rintro a ⟨⟩ o s ⟨⟩
          · cases hhint : checkedAdd (offset - p.vaddr + p.offset) sizeHint with
            | none => rintro a ⟨⟩ o s ⟨⟩
            | some hinted =>
              obtain ⟨-, rfl⟩ := checkedAdd_eq_some_iff.mp hhint
              show Safely (if _ then _ else _) _
              split
              · rintro a ⟨⟩ o s ⟨⟩
              · rintro a ⟨⟩ o s ⟨⟩
                constructor
                · omega
                · omega
      · intro a ha
        cases ha
  · cases r with
    | none => rintro o s ⟨⟩
    | some found => exact hfound found rfl

theorem translateTable_safely (h : TableOk f hdr) (hr : hdr.phNum ≤ reach hdr) (offset size : Nat)
    (failed sizeAlone : String) :
    Safely (translateTable f hdr offset size failed sizeAlone) fun o => o + size ≤ f.size := by
  unfold translateTable
  split
  · refine (elf64TranslateVaddr_safely h hr offset size).bind fun r hr => ?_
    cases r with
    | none => exact Safely.panic
    | some found => exact (hr found.1 found.2 rfl).1
  · split
    · exact Safely.panic
    · next hsize =>
      show 0 + size ≤ f.size
      omega

theorem translateSegment_safely (h : TableOk f hdr) (hr : hdr.phNum ≤ reach hdr) (offset : Nat)
    (failed : String) :
    Safely (translateSegment f hdr offset failed) fun r => r.1 + r.2 ≤ f.size := by
  unfold translateSegment
  split
  · refine (elf64TranslateVaddr_safely h hr offset 0).bind fun r hr => ?_
    cases r with
    | none => exact Safely.panic
    | some found => exact (hr found.1 found.2 rfl).2
  · exact Nat.zero_le _

/-- The tables lie in the file, and an entry of DT_RELA is large enough if it has a size. -/
structure Tables.InFile (f : File) (t : Tables) : Prop where
  rela : t.relaOffset + t.relaSize ≤ f.size
  relaEnt : t.relaEnt = 0 ∨ elf64RelaSize ≤ t.relaEnt
  relr : t.relrOffset + t.relrSize ≤ f.size
  jmprel : t.dtJmprel + t.dtPltrelsz ≤ f.size
  symtab : t.symtabOffset + t.symtabSize ≤ f.size
  strtab : t.strtabOffset + t.strtabSize ≤ f.size

theorem locateTables_safely (h : TableOk f hdr) (hr : hdr.phNum ≤ reach hdr) (d : Dynamic) :
    Safely (locateTables f hdr d) (Tables.InFile f) := by
  unfold locateTables
  refine Safely.panicIf_bind fun hent => ?_
  simp only [Bool.and_eq_false_iff, bne_eq_false_iff_eq, decide_eq_false_iff_not] at hent
  have hent : d.relaEnt = 0 ∨ elf64RelaSize ≤ d.relaEnt := by omega
  refine (translateTable_safely h hr _ _ _ _).bind fun relaOffset hrela => ?_
  refine (translateTable_safely h hr _ _ _ _).bind fun relrOffset hrelr => ?_
  refine (translateSegment_safely h hr _ _).bind fun symtab hsymtab => ?_
  refine (translateSegment_safely h hr _ _).bind fun strtab hstrtab => ?_
  refine (translateTable_safely h hr _ _ _ _).bind fun dtJmprel hjmprel => ?_
  refine Safely.panicIf_bind fun _ => ?_
  exact ⟨hrela, hent, hrelr, hjmprel, hsymtab, hstrtab⟩

end

/-! ## How many relocations there are -/

section
variable {f : File} {t : Tables}

def relrWord (f : File) (t : Tables) (i : Nat) : Nat := leAt f.byte (t.relrOffset + i * t.relrEnt) 8

/-- The words of DT_RELR from `i` on. -/
def relrWords (f : File) (t : Tables) (i n : Nat) : List Nat := (List.range' i n).map (relrWord f t)

/-- The addresses DT_RELR stands for. -/
def relrAddrs (f : File) (t : Tables) : List Nat :=
  Relr.addresses 0 (relrWords f t 0 (t.relrSize / t.relrEnt))

theorem relrWords_succ (i n : Nat) :
    relrWords f t i (n + 1) = relrWord f t i :: relrWords f t (i + 1) n := by
  rw [relrWords, List.range'_succ, List.map_cons]
  rfl

theorem relrEntry_eq (h : t.InFile f) (hent : t.relrEnt = 8) {i : Nat} (hi : i < t.relrSize / 8) :
    relrEntry f t i = .ok (relrWord f t i) := by
  have h1 := h.relr
  unfold relrEntry relrWord
  rw [hent]
  exact File.read_eq (by omega)

theorem elf64AddRelocationCount_safely (count add : Nat) (hc : count < 2 ^ 64) :
    Safely (elf64AddRelocationCount count add) fun r => r = count + add ∧ r < 2 ^ 64 := by
  unfold elf64AddRelocationCount
  split
  · exact Safely.panic
  · exact ⟨rfl, by omega⟩

theorem countRelr_safely (h : t.InFile f) (hent : t.relrEnt = 8) (n : Nat) : ∀ (i count : Nat),
    i + n ≤ t.relrSize / 8 → count < 2 ^ 64 →
      Safely (countRelr f t n i count) fun r =>
        r = count + ((relrWords f t i n).map Relr.weight).sum ∧ r < 2 ^ 64 := by
  induction n with
  | zero =>
    intro i count _ hc
    exact ⟨rfl, hc⟩
  | succ n ih =>
    intro i count hi hc
    rw [countRelr, relrEntry_eq h hent (by omega), ok_bind, relrWords_succ, List.map_cons, List.sum_cons]
    generalize relrWord f t i = word
    have hweight : (if word &&& 1 = 0 then 1 else Relr.popcount word - 1) = Relr.weight word := by
      rw [Nat.and_one_is_mod]
      rfl
    rw [hweight]
    refine (elf64AddRelocationCount_safely count _ hc).bind fun count' hcount' =>
      (ih (i + 1) count' (by omega) hcount'.2).imp ?_
    rintro r ⟨hr, hlt⟩
    constructor
    · omega
    · exact hlt

theorem countRelrTable_safely (h : t.InFile f) :
    Safely (countRelrTable f t) fun r =>
      (t.relrSize ≠ 0 → t.relrEnt = 8) ∧ r = (relrAddrs f t).length ∧ r < 2 ^ 64 := by
  unfold countRelrTable
  split
  · refine Safely.panicIf_bind fun hent => ?_
    have hent : t.relrEnt = 8 := by simpa using hent
    have hcount := countRelr_safely h hent (t.relrSize / 8) 0 0 (by omega) (by decide)
    rw [hent]
    refine hcount.imp fun r hr => ⟨fun _ => rfl, ?_, hr.2⟩
    rw [relrAddrs, Relr.length_addresses, hr.1, Nat.zero_add, hent]
  · next hsize =>
    have hsize : t.relrSize = 0 := by omega
    refine ⟨fun h0 => absurd hsize h0, ?_, by decide⟩
    rw [relrAddrs, hsize, Nat.zero_div]
    rfl

theorem countEntries_safely {size ent count : Nat} {noEnt notMultiple : String} (hc : count < 2 ^ 64) :
    Safely (countEntries size ent count noEnt notMultiple) fun r =>
      (size ≠ 0 → ent ≠ 0 ∧ ent ∣ size) ∧ r = count + size / ent ∧ r < 2 ^ 64 := by
  unfold countEntries
  split
  · refine Safely.panicIf_bind fun hent => ?_
    refine Safely.panicIf_bind fun hmod => ?_
    have hent : ent ≠ 0 := by simpa using hent
    have hdvd : ent ∣ size := Nat.dvd_of_mod_eq_zero (by simpa using hmod)
    exact (elf64AddRelocationCount_safely count _ hc).imp fun r hr => ⟨fun _ => ⟨hent, hdvd⟩, hr⟩
  · next hsize =>
    have hsize : size = 0 := by omega
    refine ⟨fun h0 => absurd hsize h0, ?_, hc⟩
    rw [hsize, Nat.zero_div, Nat.add_zero]

/-- The relocations are counted, and the tables they are in have whole entries. -/
structure Counted (f : File) (t : Tables) (relrCount relocsI : Nat) : Prop where
  relrEnt : t.relrSize ≠ 0 → t.relrEnt = 8
  relaEnt : t.relaSize ≠ 0 → t.relaEnt ≠ 0 ∧ t.relaEnt ∣ t.relaSize
  pltEnt : t.dtPltrelsz ≠ 0 → t.relaEnt ≠ 0 ∧ t.relaEnt ∣ t.dtPltrelsz
  relr : relrCount = (relrAddrs f t).length
  all : relocsI = relrCount + t.relaSize / t.relaEnt + t.dtPltrelsz / t.relaEnt

theorem countRelocations_safely (h : t.InFile f) :
    Safely (countRelocations f t) fun r => Counted f t r.1 r.2 := by
  unfold countRelocations
  refine (countRelrTable_safely h).bind fun relrCount hrelr => ?_
  refine (countEntries_safely hrelr.2.2).bind fun count hrela => ?_
  refine Safely.panicIf_bind fun _ => ?_
  refine (countEntries_safely hrela.2.2).bind fun total hplt => ?_
  exact ⟨hrelr.1, hrela.1, hplt.1, hrelr.2.1, by rw [hplt.2.1, hrela.2.1]⟩

/-! ## The array -/

theorem setReloc_at (A B : List RelocPtr) (x p : RelocPtr) :
    setReloc (A ++ x :: B) A.length p = .ok (A ++ p :: B) := by
  simp [setReloc]

theorem modifyPool_at {relocs : List RelocPtr} {A : List Elf64Rela} (B : List Elf64Rela) (a : Elf64Rela)
    (g : Elf64Rela → Elf64Rela) (h : relocs[A.length]? = some (.pool A.length)) :
    modifyPool relocs (A ++ a :: B) A.length g = .ok (A ++ g a :: B) := by
  have hmodify : (A ++ a :: B).modify A.length g = A ++ g a :: B := by
    have h0 := List.modifyTailIdx_add (List.modifyHead g) 0 A (a :: B)
    exact h0
  unfold modifyPool
  rw [h]
  simp [hmodify]

/-- A relocation of the pool. -/
def internal (addr : Nat) : Elf64Rela := ⟨addr, rInternalRelr, 0, 0⟩

/-- The first `n` pointers of the array. -/
def poolPtrs (n : Nat) : List RelocPtr := (List.range n).map .pool

@[simp] theorem length_poolPtrs (n : Nat) : (poolPtrs n).length = n := by simp [poolPtrs]

theorem poolPtrs_succ (n : Nat) : poolPtrs (n + 1) = poolPtrs n ++ [.pool n] := by
  simp [poolPtrs, List.range_succ]

theorem getElem?_poolPtrs {n k : Nat} (h : k < n) (l : List RelocPtr) :
    (poolPtrs n ++ l)[k]? = some (.pool k) := by
  rw [List.getElem?_append_left (by simpa using h)]
  simp [poolPtrs, h]

theorem linkPool_eq (n : Nat) : ∀ (i k : Nat),
    linkPool n i (poolPtrs i ++ List.replicate (n + k) .null)
        (List.replicate i (internal 0) ++ List.replicate n ⟨0, 0, 0, 0⟩) =
      .ok (poolPtrs (i + n) ++ List.replicate k .null, List.replicate (i + n) (internal 0)) := by
  induction n with
  | zero =>
    intro i k
    simp [linkPool]
  | succ n ih =>
    intro i k
    have hset : setReloc (poolPtrs i ++ List.replicate (n + 1 + k) .null) i (.pool i) =
        .ok (poolPtrs (i + 1) ++ List.replicate (n + k) .null) := by
      have h0 := setReloc_at (poolPtrs i) (List.replicate (n + k) .null) .null (.pool i)
      rw [length_poolPtrs] at h0
      rw [show n + 1 + k = n + k + 1 by omega, List.replicate_succ, h0, poolPtrs_succ,
        List.append_assoc]
      rfl
    have hpool : modifyPool (poolPtrs (i + 1) ++ List.replicate (n + k) .null)
        (List.replicate i (internal 0) ++ List.replicate (n + 1) ⟨0, 0, 0, 0⟩) i
          (fun r => { r with info := rInternalRelr }) =
        .ok (List.replicate (i + 1) (internal 0) ++ List.replicate n ⟨0, 0, 0, 0⟩) := by
      have hptr : (poolPtrs (i + 1) ++ List.replicate (n + k) .null)[
          (List.replicate i (internal 0)).length]? =
            some (.pool (List.replicate i (internal 0)).length) := by
        rw [List.length_replicate]
        exact getElem?_poolPtrs (by omega) _
      have h0 := modifyPool_at (List.replicate n ⟨0, 0, 0, 0⟩) ⟨0, 0, 0, 0⟩
        (fun r => { r with info := rInternalRelr }) hptr
      rw [List.length_replicate] at h0
      rw [List.replicate_succ, h0, List.replicate_succ', List.append_assoc]
      rfl
    rw [linkPool, hset, ok_bind, hpool, ok_bind, ih (i + 1) k, show i + 1 + n = i + (n + 1) by omega]

/-- The pool after `done` is written, with `n` entries to come. -/
def poolOf (written : List Nat) (n : Nat) : List Elf64Rela :=
  written.map internal ++ List.replicate n (internal 0)

theorem setAddr_eq (rest : List RelocPtr) {total n : Nat} {written : List Nat}
    (htotal : written.length + (n + 1) = total) (addr : Nat) :
    setAddr (poolPtrs total ++ rest) (poolOf written (n + 1)) written.length addr =
      .ok (poolOf (written ++ [addr]) n) := by
  have hptr : (poolPtrs total ++ rest)[(written.map internal).length]? =
      some (.pool (written.map internal).length) := by
    rw [List.length_map]
    exact getElem?_poolPtrs (by omega) rest
  have h0 := modifyPool_at (List.replicate n (internal 0)) (internal 0)
    (fun r => { r with addr := addr }) hptr
  rw [List.length_map] at h0
  unfold setAddr poolOf
  rw [List.replicate_succ, h0, List.map_append, List.append_assoc]
  rfl

/-- The loop over the bits of a word writes the addresses of the bits that are left. -/
theorem expandBits_eq (rest : List RelocPtr) (base total m : Nat) :
    ∀ (entry j n : Nat) (written : List Nat), entry / 2 < 2 ^ m →
      written.length + (n + (Relr.shifted base m (entry / 2) j).length) = total →
      expandBits (poolPtrs total ++ rest) base entry j written.length
          (poolOf written (n + (Relr.shifted base m (entry / 2) j).length)) =
        .ok ((written ++ Relr.shifted base m (entry / 2) j).length,
          poolOf (written ++ Relr.shifted base m (entry / 2) j) n) := by
  induction m with
  | zero =>
    intro entry j n written hlt htotal
    have hzero : entry / 2 = 0 := by omega
    have hshift : entry >>> 1 = 0 := by rw [Nat.shiftRight_eq_div_pow]; exact hzero
    rw [expandBits, dif_pos hshift, hzero, Relr.shifted_zero, List.append_nil]
    rfl
  | succ m ih =>
    intro entry j n written hlt htotal
    have hshift : entry >>> 1 = entry / 2 := Nat.shiftRight_eq_div_pow entry 1
    rw [expandBits]
    by_cases hzero : entry / 2 = 0
    · rw [hshift, dif_pos hzero, hzero, Relr.shifted_zero, List.append_nil]
      rfl
    · have hhalf : entry / 2 / 2 < 2 ^ m := by rw [Nat.pow_succ] at hlt; omega
      rw [hshift, dif_neg hzero, Nat.and_one_is_mod]
      rw [Relr.shifted_succ] at htotal ⊢
      by_cases hodd : entry / 2 % 2 = 1
      · rw [if_pos hodd] at htotal ⊢
        simp only [List.cons_append, List.nil_append, List.length_cons] at htotal ⊢
        have hset := setAddr_eq rest (by omega :
          written.length + (n + (Relr.shifted base m (entry / 2 / 2) (j + 1)).length + 1) = total)
          (add64 base (j * 8))
        have hrec := ih (entry / 2) (j + 1) n (written ++ [add64 base (j * 8)]) hhalf (by
          rw [List.length_append, List.length_singleton]
          omega)
        rw [List.length_append, List.length_singleton] at hrec
        rw [if_pos (by omega), ← Nat.add_assoc, hset, ok_bind, hrec, List.append_assoc]
        rfl
      · rw [if_neg hodd] at htotal ⊢
        simp only [List.nil_append] at htotal ⊢
        rw [if_neg (by omega)]
        exact ih (entry / 2) (j + 1) n written hhalf htotal

theorem expandRelr_eq (h : t.InFile f) (hent : t.relrEnt = 8) (rest : List RelocPtr) (total n : Nat) :
    ∀ (i base k : Nat) (written : List Nat), i + n ≤ t.relrSize / 8 →
      written.length + (k + (Relr.addresses base (relrWords f t i n)).length) = total →
      expandRelr f t (poolPtrs total ++ rest) n i base written.length
          (poolOf written (k + (Relr.addresses base (relrWords f t i n)).length)) =
        .ok ((written ++ Relr.addresses base (relrWords f t i n)).length,
          poolOf (written ++ Relr.addresses base (relrWords f t i n)) k) := by
  induction n with
  | zero =>
    intro i base k written _ _
    simp [expandRelr, relrWords, Relr.addresses]
  | succ n ih =>
    intro i base k written hi htotal
    have hlt : relrWord f t i < 2 ^ 64 := leAt_lt f.byte _ 8
    rw [relrWords_succ, Relr.addresses] at htotal ⊢
    rw [expandRelr, relrEntry_eq h hent (by omega), ok_bind, Nat.and_one_is_mod]
    generalize relrWord f t i = word at *
    by_cases heven : word % 2 = 0
    · simp only [if_pos heven, List.length_cons] at htotal ⊢
      have hset := setAddr_eq rest (by omega : written.length +
        (k + (Relr.addresses ((word + 8) % 2 ^ 64) (relrWords f t (i + 1) n)).length + 1) = total) word
      have hrec := ih (i + 1) ((word + 8) % 2 ^ 64) k (written ++ [word]) (by omega) (by
        rw [List.length_append, List.length_singleton]
        omega)
      rw [List.length_append, List.length_singleton] at hrec
      rw [← Nat.add_assoc, hset, ok_bind, add64, hrec, List.append_assoc]
      simp
    · simp only [if_neg heven] at htotal ⊢
      rw [List.length_append] at htotal
      have hbits := expandBits_eq rest base total 63 word 0
        (k + (Relr.addresses ((base + 63 * 8) % 2 ^ 64) (relrWords f t (i + 1) n)).length) written
        (by omega) (by rw [← Relr.bitmap_eq_shifted]; omega)
      rw [← Relr.bitmap_eq_shifted] at hbits
      have hrec := ih (i + 1) ((base + 63 * 8) % 2 ^ 64) k (written ++ Relr.bitmap base word)
        (by omega) (by rw [List.length_append]; omega)
      have hlength : k + (Relr.bitmap base word ++
          Relr.addresses ((base + 63 * 8) % 2 ^ 64) (relrWords f t (i + 1) n)).length =
          k + (Relr.addresses ((base + 63 * 8) % 2 ^ 64) (relrWords f t (i + 1) n)).length +
            (Relr.bitmap base word).length := by
        rw [List.length_append]
        omega
      rw [hlength, hbits, ok_bind]
      show expandRelr f t _ n (i + 1) _ _ _ = _
      rw [add64, hrec, List.append_assoc]

/-- The pass that expands DT_RELR writes the whole pool. -/
theorem relrPool_eq (h : t.InFile f) (hent : t.relrEnt = 8) (rest : List RelocPtr) :
    expandRelr f t (poolPtrs (relrAddrs f t).length ++ rest) (t.relrSize / t.relrEnt) 0 0 0
        (List.replicate (relrAddrs f t).length (internal 0)) =
      .ok ((relrAddrs f t).length, (relrAddrs f t).map internal) := by
  have h0 := expandRelr_eq h hent rest (relrAddrs f t).length (t.relrSize / t.relrEnt) 0 0 0 []
    (by rw [hent]; omega) (by
      show 0 + (0 + (relrAddrs f t).length) = (relrAddrs f t).length
      omega)
  rw [Nat.zero_add] at h0
  refine h0.trans ?_
  show Except.ok (_, (relrAddrs f t).map internal ++ []) = _
  rw [List.append_nil]
  rfl

/-- The pointers to `n` entries of a table in the file. -/
def filePtrs (table ent n : Nat) : List RelocPtr := (List.range n).map fun k => .file (table + k * ent)

@[simp] theorem length_filePtrs (table ent n : Nat) : (filePtrs table ent n).length = n := by
  simp [filePtrs]

theorem filePtrs_succ (table ent n : Nat) :
    filePtrs table ent (n + 1) = .file table :: filePtrs (table + ent) ent n := by
  unfold filePtrs
  rw [List.range_succ_eq_map, List.map_cons, List.map_map, Nat.zero_mul, Nat.add_zero]
  congr 1
  refine List.map_congr_left fun k _ => ?_
  show RelocPtr.file (table + (k + 1) * ent) = RelocPtr.file (table + ent + k * ent)
  rw [Nat.succ_mul]
  congr 1
  omega

/-- The loop over a table sets a pointer to each entry that is left. -/
theorem linkFile_eq {table size ent : Nat} (hent : ent ≠ 0) (hsize : table + size < 2 ^ 64) (n : Nat) :
    ∀ (fuel offset k : Nat) (front : List RelocPtr), n < fuel → offset + n * ent = size →
      linkFile table size ent fuel front.length offset (front ++ List.replicate (n + k) .null) =
        .ok (front ++ filePtrs (table + offset) ent n ++ List.replicate k .null) := by
  induction n with
  | zero =>
    intro fuel offset k front hfuel hoffset
    cases fuel with
    | zero => omega
    | succ fuel =>
      rw [linkFile, if_neg (by omega)]
      simp [filePtrs]
  | succ n ih =>
    intro fuel offset k front hfuel hoffset
    rw [Nat.succ_mul] at hoffset
    cases fuel with
    | zero => omega
    | succ fuel =>
      have hset := setReloc_at front (List.replicate (n + k) .null) .null (.file (table + offset))
      have hrec := ih fuel (offset + ent) k (front ++ [.file (table + offset)]) (by omega) (by omega)
      rw [List.length_append, List.length_singleton] at hrec
      rw [linkFile, if_pos (by omega), add64_eq (by omega), show n + 1 + k = n + k + 1 by omega,
        List.replicate_succ, hset, ok_bind, add64_eq (by omega)]
      rw [filePtrs_succ, show front ++ .file (table + offset) :: List.replicate (n + k) .null =
        front ++ [.file (table + offset)] ++ List.replicate (n + k) .null by simp, hrec]
      simp [Nat.add_assoc]

theorem fillEntries_eq {table size ent : Nat} (hsize : table + size < 2 ^ 64)
    (hent : size ≠ 0 → ent ≠ 0 ∧ ent ∣ size) (k : Nat) (front : List RelocPtr) :
    fillEntries table size ent front.length (front ++ List.replicate (size / ent + k) .null) =
      .ok (front ++ filePtrs table ent (size / ent) ++ List.replicate k .null) := by
  unfold fillEntries
  by_cases h : size = 0
  · rw [if_neg (by omega), h, Nat.zero_div, Nat.zero_add]
    simp [filePtrs]
  · obtain ⟨h0, hdvd⟩ := hent h
    have hdiv : size / ent ≤ size := Nat.div_le_self size ent
    rw [if_pos h]
    exact linkFile_eq h0 hsize (size / ent) (size + 1) 0 k front (by omega)
      (by rw [Nat.zero_add, Nat.div_mul_cancel hdvd])

/-! ## The table of relocations -/

/-- The `n` relocations of a table in the file. -/
def entries (f : File) (table ent n : Nat) : List Elf64Rela :=
  (List.range n).map fun k => elf64Rela f.byte (table + k * ent)

/-- The relocations of the file in the order of their tables. -/
def relocTable (f : File) (t : Tables) : List Elf64Rela :=
  (relrAddrs f t).map internal ++ entries f t.relaOffset t.relaEnt (t.relaSize / t.relaEnt) ++
    entries f t.dtJmprel t.relaEnt (t.dtPltrelsz / t.relaEnt)

/-- The array of `st` leads to the relocations of `table`, and the tables of symbols and strings lie
in the file. -/
structure Prepared (f : File) (st : RelocState) (table : List Elf64Rela) : Prop where
  count : st.relocsI = table.length
  length : st.relocs.length = st.relocsI
  ptrs : List.Forall₂ (fun p r => derefPtr f st.relrPool p = .ok r) st.relocs table
  pool : st.relrPool.length = st.relrCount
  symtab : st.symtabOffset + st.symtabSize ≤ f.size
  strtab : st.strtabOffset + st.strtabSize ≤ f.size

theorem derefPtr_pool (f : File) (addrs : List Nat) :
    List.Forall₂ (fun p r => derefPtr f (addrs.map internal) p = .ok r) (poolPtrs addrs.length)
      (addrs.map internal) := by
  refine List.forall₂_iff_get.mpr ⟨by simp, fun i h1 h2 => ?_⟩
  have hi : i < addrs.length := by simpa using h1
  simp [poolPtrs, derefPtr, hi]

theorem derefPtr_file {table size ent : Nat} (hfile : table + size ≤ f.size)
    (hlarge : ent = 0 ∨ elf64RelaSize ≤ ent) (hent : size ≠ 0 → ent ≠ 0 ∧ ent ∣ size)
    (pool : List Elf64Rela) :
    List.Forall₂ (fun p r => derefPtr f pool p = .ok r) (filePtrs table ent (size / ent))
      (entries f table ent (size / ent)) := by
  unfold filePtrs entries
  rw [List.forall₂_map_left_iff, List.forall₂_map_right_iff, List.forall₂_same]
  intro k hk
  rw [List.mem_range] at hk
  have hsize : size ≠ 0 := by
    rintro rfl
    rw [Nat.zero_div] at hk
    omega
  obtain ⟨h0, hdvd⟩ := hent hsize
  have hmul : (k + 1) * ent ≤ size / ent * ent := Nat.mul_le_mul_right ent hk
  rw [Nat.div_mul_cancel hdvd, Nat.succ_mul] at hmul
  exact File.read_eq (by omega)

theorem allocPool_safely (alloc : Allocator) (n : Nat) :
    Safely (allocPool alloc n) fun pool => pool = List.replicate n ⟨0, 0, 0, 0⟩ := by
  unfold allocPool
  split
  · exact (extMemAllocCounted_safely alloc 1 n elf64RelaSize).bind fun _ _ => rfl
  · next h =>
    have h : n = 0 := by omega
    subst h
    rfl

theorem fillRelr_safely (alloc : Allocator) (h : t.InFile f) (hent : t.relrSize ≠ 0 → t.relrEnt = 8)
    (k : Nat) :
    Safely (fillRelr alloc f t (relrAddrs f t).length
        (List.replicate ((relrAddrs f t).length + k) .null)) fun r =>
      r = (poolPtrs (relrAddrs f t).length ++ List.replicate k .null, (relrAddrs f t).map internal) := by
  unfold fillRelr
  by_cases hsize : t.relrSize = 0
  · have hnone : relrAddrs f t = [] := by
      rw [relrAddrs, hsize, Nat.zero_div]
      rfl
    rw [if_neg (by omega), hnone]
    show (List.replicate (0 + k) RelocPtr.null, []) = _
    rw [Nat.zero_add]
    rfl
  · have hent := hent hsize
    rw [if_pos hsize]
    have hlink : linkPool (relrAddrs f t).length 0
        (List.replicate ((relrAddrs f t).length + k) .null)
        (List.replicate (relrAddrs f t).length ⟨0, 0, 0, 0⟩) =
        .ok (poolPtrs (relrAddrs f t).length ++ List.replicate k .null,
          List.replicate (relrAddrs f t).length (internal 0)) := by
      simpa [poolPtrs] using linkPool_eq (relrAddrs f t).length 0 k
    have hexpand := relrPool_eq h hent (List.replicate k .null)
    refine (allocPool_safely alloc _).bind fun pool hpool => ?_
    rw [hpool, hlink, ok_bind]
    show Safely (expandRelr f t _ _ 0 0 0 _ >>= _) _
    rw [hexpand]
    exact rfl

theorem fillRelocations_safely (alloc : Allocator) (h : t.InFile f) {relrCount relocsI : Nat}
    (hc : Counted f t relrCount relocsI) :
    Safely (fillRelocations alloc f t relrCount relocsI) fun st =>
      st.toSymTables = t.toSymTables ∧ (relrCount = st.relrCount ∧ relocsI = st.relocsI) ∧
        Prepared f st (relocTable f t) := by
  obtain ⟨hrelr, hrela, hplt, rfl, rfl⟩ := hc
  have hlt := f.size_lt
  have hrelaLe := h.rela
  have hpltLe := h.jmprel
  unfold fillRelocations
  refine (extMemAllocCounted_safely alloc 0 _ 8).bind fun _ _ => ?_
  have hfill := fillRelr_safely alloc h hrelr (t.relaSize / t.relaEnt + t.dtPltrelsz / t.relaEnt)
  rw [← Nat.add_assoc] at hfill
  refine hfill.bind ?_
  rintro _ rfl
  have h1 := fillEntries_eq (by omega : t.relaOffset + t.relaSize < 2 ^ 64) hrela
    (t.dtPltrelsz / t.relaEnt) (poolPtrs (relrAddrs f t).length)
  have h2 := fillEntries_eq (by omega : t.dtJmprel + t.dtPltrelsz < 2 ^ 64) hplt 0
    (poolPtrs (relrAddrs f t).length ++ filePtrs t.relaOffset t.relaEnt (t.relaSize / t.relaEnt))
  rw [length_poolPtrs] at h1
  rw [List.length_append, length_poolPtrs, length_filePtrs, Nat.add_zero] at h2
  show Safely (fillEntries _ _ _ _ _ >>= _) _
  rw [h1, ok_bind, h2, ok_bind]
  refine ⟨rfl, ⟨rfl, rfl⟩, ?_, ?_, ?_, by simp, h.symtab, h.strtab⟩
  · simp [relocTable, entries, Nat.add_assoc]
  · simp [filePtrs, Nat.add_assoc]
  · show List.Forall₂ _ (_ ++ _ ++ List.replicate 0 RelocPtr.null) _
    rw [List.replicate_zero, List.append_nil]
    exact List.rel_append (List.rel_append (derefPtr_pool f _)
      (derefPtr_file h.rela h.relaEnt hrela _)) (derefPtr_file h.jmprel h.relaEnt hplt _)

end

section
variable {f : File} {hdr : Elf64Hdr}

theorem dynamicTables_safely (h : TableOk f hdr) (hr : hdr.phNum ≤ reach hdr) :
    Safely (dynamicTables f hdr) fun r => ∀ t, r = some t → t.InFile f := by
  unfold dynamicTables checkPhdrSize
  refine Safely.panicIf_bind fun _ => ?_
  split
  · rintro t ⟨⟩
  · refine (dynamicSection_safely h hr).bind fun r _ => ?_
    cases r with
    | none => rintro t ⟨⟩
    | some d =>
      refine (locateTables_safely h hr d).bind fun t ht => ?_
      rintro t' ⟨⟩
      exact ht

theorem elf64PrepareRelocations_safely (alloc : Allocator) (h : TableOk f hdr)
    (hr : hdr.phNum ≤ reach hdr) :
    Safely (elf64PrepareRelocations alloc f hdr) fun r => ∀ st, r = some st →
      ∃ t, dynamicTables f hdr = .ok (some t) ∧ t.InFile f ∧ st.toSymTables = t.toSymTables ∧
        (countRelocations f t = .ok (st.relrCount, st.relocsI) ∧ Counted f t st.relrCount st.relocsI) ∧
        Prepared f st (relocTable f t) := by
  unfold elf64PrepareRelocations
  refine (dynamicTables_safely h hr).and_eq.bind fun r hr => ?_
  cases r with
  | none => rintro st ⟨⟩
  | some t =>
    obtain ⟨heq, ht⟩ := hr
    have ht := ht t rfl
    refine (countRelocations_safely ht).and_eq.bind fun c hc => ?_
    refine (fillRelocations_safely alloc ht hc.2).bind fun st hst => ?_
    rintro st' ⟨⟩
    obtain ⟨hsym, ⟨h1, h2⟩, hprep⟩ := hst
    rw [← h1, ← h2]
    exact ⟨t, heq, ht, hsym, hc, hprep⟩

end

end Limine.Elf
