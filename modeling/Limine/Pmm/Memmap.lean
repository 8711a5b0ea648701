import Limine.Machine
import Limine.Lib.SwapRemove
import Mathlib.Algebra.BigOperators.Group.List.Basic
import Mathlib.Algebra.GroupWithZero.Nat
import Mathlib.Data.Set.Lattice
import Mathlib.Order.CompletePartialOrder

/-!
# The memory map

An entry is `struct memmap_entry`; a map is the list of the first `count` entries of the
array.  `typesAt` is what a map means: the types that claim an address.  The source's
invariant is `UsableDisjoint`: an address that a `MEMMAP_USABLE` entry claims is claimed
by no other entry.
-/

namespace Limine.Pmm

def memmapUsable : Nat := 1
def memmapReserved : Nat := 2
def memmapAcpiReclaimable : Nat := 3
def memmapAcpiNvs : Nat := 4
def memmapBadMemory : Nat := 5
def memmapBootloaderReclaimable : Nat := 0x1000
def memmapKernelAndModules : Nat := 0x1001
def memmapFramebuffer : Nat := 0x1002
def memmapReservedMapped : Nat := 0x1003
def memmapEfiReclaimable : Nat := 0x2000

def pageSize : Nat := 4096

structure MemmapEntry where
  base : Nat
  length : Nat
  type : Nat
deriving DecidableEq, Repr

namespace MemmapEntry

/-- The addresses an entry covers. -/
def span (e : MemmapEntry) : Set Nat := {a | e.base ≤ a ∧ a < e.base + e.length}

@[simp] theorem mem_span {e : MemmapEntry} {a : Nat} :
    a ∈ e.span ↔ e.base ≤ a ∧ a < e.base + e.length := Iff.rfl

/-- The entry ends inside 64 bits. -/
def NoOverflow (e : MemmapEntry) : Prop := e.base + e.length < 2 ^ 64

instance (e : MemmapEntry) : Decidable e.NoOverflow := inferInstanceAs (Decidable (_ < _))

/-- One of the two is usable only if they share no address. -/
def Apart (e r : MemmapEntry) : Prop :=
  e.type = memmapUsable ∨ r.type = memmapUsable → Disjoint e.span r.span

theorem span_disjoint_iff {e r : MemmapEntry} :
    Disjoint e.span r.span ↔
      e.length = 0 ∨ r.length = 0 ∨ e.base + e.length ≤ r.base ∨ r.base + r.length ≤ e.base := by
  rw [Set.disjoint_left]
  simp only [mem_span]
  constructor
  · intro h
    have h1 := @h e.base
    have h2 := @h r.base
    omega
  · intro h a
    omega

instance (e r : MemmapEntry) : Decidable (Disjoint e.span r.span) :=
  decidable_of_iff' _ span_disjoint_iff

theorem Apart.symm {e r : MemmapEntry} (h : Apart e r) : Apart r e :=
  fun ht => (h ht.symm).symm

end MemmapEntry

open MemmapEntry

abbrev Memmap := List MemmapEntry

def NoneOverflows (m : Memmap) : Prop := ∀ e ∈ m, e.NoOverflow

/-- No usable entry overlaps another entry. -/
def UsableDisjoint (m : Memmap) : Prop := m.Pairwise Apart

def SortedByBase (m : Memmap) : Prop := m.Pairwise fun e r => e.base ≤ r.base

/-- The types that claim address `a`. -/
def typesAt (m : Memmap) (a : Nat) : Set Nat := {t | ∃ e ∈ m, e.type = t ∧ a ∈ e.span}

/-- Address `a` is covered by an entry of type `t`. -/
abbrev Covers (m : Memmap) (t a : Nat) : Prop := t ∈ typesAt m a

theorem covers_iff {m : Memmap} {t a : Nat} :
    Covers m t a ↔ ∃ e ∈ m, e.type = t ∧ a ∈ e.span := Iff.rfl

@[simp] theorem typesAt_nil (a : Nat) : typesAt [] a = ∅ := by
  ext t
  simp [typesAt]

theorem mem_typesAt_cons {e : MemmapEntry} {m : Memmap} {t a : Nat} :
    t ∈ typesAt (e :: m) a ↔ (e.type = t ∧ a ∈ e.span) ∨ t ∈ typesAt m a := by
  simp [typesAt]

theorem mem_typesAt_append {m m' : Memmap} {t a : Nat} :
    t ∈ typesAt (m ++ m') a ↔ t ∈ typesAt m a ∨ t ∈ typesAt m' a := by
  simp [typesAt, or_and_right, exists_or]

theorem typesAt_perm {m m' : Memmap} (h : m.Perm m') (a : Nat) : typesAt m a = typesAt m' a := by
  ext t
  simp only [typesAt, Set.mem_ofPred_eq, h.mem_iff]

theorem NoneOverflows.perm {m m' : Memmap} (hm : NoneOverflows m) (h : m.Perm m') :
    NoneOverflows m' :=
  fun e he => hm e (h.mem_iff.mpr he)

theorem UsableDisjoint.perm {m m' : Memmap} (hm : UsableDisjoint m) (h : m.Perm m') :
    UsableDisjoint m' :=
  (h.pairwise_iff fun h => h.symm).mp hm

/-- Under the invariant, a usable address has no other type. -/
theorem UsableDisjoint.eq_of_covers {m : Memmap} (hm : UsableDisjoint m) {a t : Nat}
    (hu : Covers m memmapUsable a) (ht : Covers m t a) : t = memmapUsable := by
  induction m with
  | nil => simp [Covers] at hu
  | cons e m ih =>
    obtain ⟨he, hm⟩ := List.pairwise_cons.mp hm
    have clash : ∀ r ∈ m, a ∈ e.span → a ∈ r.span → ¬ (e.type = memmapUsable ∨ r.type = memmapUsable) :=
      fun r hr h1 h2 h3 => Set.disjoint_left.mp (he r hr h3) h1 h2
    rcases mem_typesAt_cons.mp hu with ⟨h1, h2⟩ | ⟨r, hr, h1, h2⟩
    · rcases mem_typesAt_cons.mp ht with ⟨h3, -⟩ | ⟨r, hr, h3, h4⟩
      · rw [← h3, h1]
      · exact absurd (Or.inl h1) (clash r hr h2 h4)
    · rcases mem_typesAt_cons.mp ht with ⟨-, h4⟩ | h3
      · exact absurd (Or.inr h1) (clash r hr h4 h2)
      · exact ih hm ⟨r, hr, h1, h2⟩ h3

end Limine.Pmm
