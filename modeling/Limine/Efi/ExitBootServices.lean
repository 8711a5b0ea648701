import Limine.Lib.Tiling
import Limine.Pmm.Memmap

/-!
# Handing the memory map back

`efi_exit_boot_services` asks the firmware for its memory map until it may leave, and then writes
the map anew: what the loader owned is conventional memory again.  The copy was sized before the
firmware was gone, and running out of it afterwards is a panic.
-/

namespace Limine.Efi

open Limine.Lib Limine.Pmm

def efiConventionalMemory : Nat := 7

/-- `EFI_MEMORY_DESCRIPTOR`. -/
structure EfiMemoryDescriptor where
  type : Nat
  physicalStart : Nat
  virtualStart : Nat
  numberOfPages : Nat
  attributes : Nat
deriving DecidableEq, Repr

/-- `CHECKED_MUL` on `UINTN`; `none` is its `onerror`. -/
def checkedMul (a b : Nat) : Option Nat := if a * b < 2 ^ 64 then some (a * b) else none

section
variable (regions : Memmap) (maxEntries : Nat)

end

namespace EfiMemoryDescriptor

def top (d : EfiMemoryDescriptor) : Nat := d.physicalStart + d.numberOfPages * 4096

def bounds (d : EfiMemoryDescriptor) : Nat × Nat := (d.physicalStart, d.top)

/-- The addresses a descriptor covers. -/
def span (d : EfiMemoryDescriptor) : Set Nat := {a | d.physicalStart ≤ a ∧ a < d.top}

@[simp] theorem mem_span {d : EfiMemoryDescriptor} {a : Nat} :
    a ∈ d.span ↔ d.physicalStart ≤ a ∧ a < d.top := Iff.rfl

end EfiMemoryDescriptor

/-- A map of the firmware: its descriptors are of whole pages, below the end of the address space,
and no two share an address. -/
structure FirmwareMap (ds : List EfiMemoryDescriptor) : Prop where
  aligned : ∀ d ∈ ds, 4096 ∣ d.physicalStart
  noOverflow : ∀ d ∈ ds, d.top < 2 ^ 64
  disjoint : ds.Pairwise fun d d' => Disjoint d.span d'.span

/-- The usable regions are of whole pages, below the end of the address space. -/
def PageRegions (regions : Memmap) : Prop :=
  ∀ r ∈ regions, r.type = memmapUsable → 4096 ∣ r.base ∧ 4096 ∣ r.length ∧ r.NoOverflow

/-- A piece of a descriptor: all of it is the loader's and conventional, or none of it is and it is
of the firmware's type. -/
structure Piece (regions : Memmap) (orig d : EfiMemoryDescriptor) : Prop where
  aligned : 4096 ∣ d.physicalStart
  owned : ∀ a ∈ d.span, Covers regions memmapUsable a → d.type = efiConventionalMemory
  kept : ∀ a ∈ d.span, ¬Covers regions memmapUsable a → d.type = orig.type
  attributes : d.attributes = orig.attributes
  virtualStart : d.virtualStart = if d.physicalStart = orig.physicalStart then orig.virtualStart else 0

/-- The pieces a descriptor is given back in. -/
def Pieces (regions : Memmap) (orig : EfiMemoryDescriptor) (ds : List EfiMemoryDescriptor) : Prop :=
  Tiles orig.physicalStart (ds.map EfiMemoryDescriptor.bounds) orig.top ∧
    ∀ d ∈ ds, Piece regions orig d

/-! ## The runs -/

section
variable {regions : Memmap}

theorem PageRegions.tail {r : MemmapEntry} (h : PageRegions (r :: regions)) : PageRegions regions :=
  fun r' hr => h r' (by simp [hr])

/-- What the loop over the regions finds: a run that does not go past `runTop`, ends there or at
the edge of a usable region, and lies in a usable region or shares no address with any. -/
structure Run (regions : Memmap) (cur runTop : Nat) (run : Nat × Bool) : Prop where
  lt : cur < run.1
  le : run.1 ≤ runTop
  cut : run.1 = runTop ∨ ∃ r ∈ regions, r.type = memmapUsable ∧
    (run.1 = r.base ∨ run.1 = r.base + r.length)
  owned : run.2 = true → ∀ a, cur ≤ a → a < run.1 → Covers regions memmapUsable a
  free : run.2 = false → ∀ a, cur ≤ a → a < run.1 → ¬Covers regions memmapUsable a

/-- A region before the others that does not meet the run. -/
theorem Run.cons {cur runTop runTop' : Nat} {run : Nat × Bool} {r : MemmapEntry}
    (h : Run regions cur runTop' run) (hle : runTop' ≤ runTop)
    (hcut : runTop' = runTop ∨ r.type = memmapUsable ∧ runTop' = r.base)
    (hoff : ∀ a, cur ≤ a → a < runTop' → r.type = memmapUsable → a ∉ r.span) :
    Run (r :: regions) cur runTop run := by
  have hcovers : ∀ a, Covers (r :: regions) memmapUsable a ↔
      r.type = memmapUsable ∧ a ∈ r.span ∨ Covers regions memmapUsable a :=
    fun a => mem_typesAt_cons
  constructor
  · exact h.lt
  · exact Nat.le_trans h.le hle
  · rcases h.cut with hend | ⟨r', hr', hedge⟩
    · rw [hend]
      rcases hcut with rfl | ⟨hu, rfl⟩
      · exact Or.inl rfl
      · exact Or.inr ⟨r, by simp, hu, Or.inl rfl⟩
    · exact Or.inr ⟨r', by simp [hr'], hedge⟩
  · intro ho a h1 h2
    rw [hcovers]
    exact Or.inr (h.owned ho a h1 h2)
  · intro hf a h1 h2
    rw [hcovers]
    rintro (⟨hu, ha⟩ | ha)
    · exact hoff a h1 (Nat.lt_of_lt_of_le h2 h.le) hu ha
    · exact h.free hf a h1 h2 ha

/-- A run of whole pages up to a page boundary, or to the edge of a region. -/
theorem Run.dvd {cur runTop : Nat} {run : Nat × Bool} (h : Run regions cur runTop run)
    (hp : PageRegions regions) (htop : 4096 ∣ runTop) : 4096 ∣ run.1 := by
  rcases h.cut with hend | ⟨r, hr, hu, hend | hend⟩
  · rwa [hend]
  · rw [hend]
    exact (hp r hr hu).1
  · rw [hend]
    exact Nat.dvd_add (hp r hr hu).1 (hp r hr hu).2.1

theorem FirmwareMap.tail {d : EfiMemoryDescriptor} {ds : List EfiMemoryDescriptor}
    (h : FirmwareMap (d :: ds)) : FirmwareMap ds :=
  ⟨fun d' hd => h.aligned d' (by simp [hd]), fun d' hd => h.noOverflow d' (by simp [hd]),
    (List.pairwise_cons.mp h.disjoint).2⟩

theorem FirmwareMap.top_dvd {d : EfiMemoryDescriptor} {ds : List EfiMemoryDescriptor}
    (h : FirmwareMap ds) (hd : d ∈ ds) : 4096 ∣ d.top :=
  Nat.dvd_add (h.aligned d hd) (Nat.dvd_mul_left 4096 _)

theorem Pieces.disjoint {orig : EfiMemoryDescriptor} {group : List EfiMemoryDescriptor}
    (h : Pieces regions orig group) : group.Pairwise fun d d' => Disjoint d.span d'.span := by
  refine (List.pairwise_map.mp h.1.pairwise).imp ?_
  intro d d' hle
  rw [Set.disjoint_left]
  intro a ha ha'
  exact absurd (Nat.lt_of_lt_of_le ha.2 hle) (Nat.not_lt.mpr ha'.1)

def twoRegions : Memmap := [⟨0x5000, 0x3000, 1⟩, ⟨0x2000, 0x1000, 1⟩, ⟨0, 0x800, 2⟩]

end

end Limine.Efi
