import Limine.Vmm.X86
import Limine.Vmm.AArch64
import Limine.Vmm.RiscV
import Limine.Vmm.LoongArch

/-!
# The ports side by side

What code that fills page tables for any of the architectures can rely on: the memory type apart,
a new pagemap is to the hardware the overlay of the calls of `map_pages`.
-/

namespace Limine.Vmm

/-- Where a virtual address leads, and what a supervisor may do there. -/
structure Access where
  phys : Nat
  write : Bool
  exec : Bool
deriving DecidableEq, Repr

/-- What a call of `map_pages` gives an address. -/
def MapCall.access (c : MapCall) (v : Nat) : Access := ⟨c.phys + (v - c.virt), c.attr.write, !c.attr.noexec⟩

/-- A call for ordinary memory. -/
def MapCall.Plain (V : AddressSpace) (bound : Nat) (c : MapCall) : Prop := c.Ok V bound ∧ c.attr.fb = false

structure Port where
  Pagemap : Type
  newPagemap : VmmM Pagemap
  mapPages : Pagemap → MapCall → VmmM Unit
  hwAccess : Memory → Pagemap → Nat → Except Fault Access
  space : AddressSpace
  /-- The end of the physical addresses that entries have. -/
  bound : Nat
  PageOk : Nat → Prop
  bound_le : bound ≤ 2 ^ 56
  bound_aligned : 0x1000 ∣ bound
  half_ge : 38 ≤ space.half
  overlay : ∀ {s s' : Memory} {pagemap : Pagemap} {calls : List MapCall}, SupplyOk PageOk s.supply →
    (∀ c ∈ calls, c.Plain space bound) →
    buildPagemap newPagemap mapPages calls s = .ok (pagemap, s') →
    ∀ v, space.Valid v → hwAccess s' pagemap v =
      match lastCall calls v with
      | none => .error .notMapped
      | some c => .ok (c.access v)

section
variable {s s' : Memory} {calls : List MapCall}

def X86.Page.access (p : X86.Page) : Access := ⟨p.phys, p.writable, !p.noexec⟩

theorem X86.port_overlay {cpu : X86.Cpu} {pagingMode : Nat} {pagemap : X86.Pagemap}
    (hs : SupplyOk (X86.PageOk cpu) s.supply)
    (hcalls : ∀ c ∈ calls, c.Plain (X86.space (X86.fiveLvlOf pagingMode)) (2 ^ cpu.paBits))
    (hrun : buildPagemap (X86.newPagemap pagingMode) (X86.mapPages cpu) calls s = .ok (pagemap, s')) (v : Nat)
    (hv : (X86.space (X86.fiveLvlOf pagingMode)).Valid v) :
    (X86.hwTranslate cpu s' pagemap v).map X86.Page.access =
      match lastCall calls v with
      | none => .error .notMapped
      | some c => .ok (c.access v) := by
  obtain ⟨hlevels, ht⟩ := (buildPagemap_spec (fun pm _ => pm.topLevel)
    (@X86.newPagemap_spec cpu false pagingMode s hs)
    fun pm hlevels c hc s f => X86.mapPages_spec hlevels (hcalls c hc).1 (hcalls c hc).2).of_ok hrun
  rw [X86.hwTranslate_eq hlevels ht hv]
  unfold lastLeaf
  cases lastCall calls v <;> rfl

def X86.port (cpu : X86.Cpu) (pagingMode : Nat) : Port where
  Pagemap := X86.Pagemap
  newPagemap := X86.newPagemap pagingMode
  mapPages := X86.mapPages cpu
  hwAccess s pagemap v := (X86.hwTranslate cpu s pagemap v).map X86.Page.access
  space := X86.space (X86.fiveLvlOf pagingMode)
  bound := 2 ^ cpu.paBits
  PageOk := X86.PageOk cpu
  bound_le := Nat.pow_le_pow_right (by decide) (Nat.le_trans (Nat.min_le_left _ _) (by decide))
  bound_aligned := Nat.pow_dvd_pow 2 (Nat.le_min.mpr ⟨by decide, Nat.le_trans (by decide) cpu.maxPhyAddr_ge⟩ :
    12 ≤ cpu.paBits)
  half_ge := by cases X86.fiveLvlOf pagingMode <;> decide
  overlay hs hcalls hrun := X86.port_overlay hs hcalls hrun

def AArch64.Page.access (p : AArch64.Page) : Access := ⟨p.phys, !p.readOnly, !p.pxn⟩

theorem AArch64.port_overlay {pagingMode : Nat} {pagemap : AArch64.Pagemap}
    (hs : SupplyOk (AArch64.PageOk (AArch64.dsOf pagingMode)) s.supply)
    (hcalls : ∀ c ∈ calls, c.Plain (AArch64.space (AArch64.dsOf pagingMode))
      (2 ^ AArch64.paBits (AArch64.dsOf pagingMode)))
    (hrun : buildPagemap (AArch64.newPagemap pagingMode) (AArch64.mapPages (AArch64.dsOf pagingMode)) calls s =
      .ok (pagemap, s')) (v : Nat) (hv : (AArch64.space (AArch64.dsOf pagingMode)).Valid v) :
    (AArch64.hwTranslate (AArch64.dsOf pagingMode) s' pagemap v).map AArch64.Page.access =
      match lastCall calls v with
      | none => .error .notMapped
      | some c => .ok (c.access v) := by
  obtain ⟨-, ht⟩ := (buildPagemap_spec AArch64.Pagemap.topLevel (AArch64.newPagemap_spec pagingMode hs)
    fun pm hlevels c hc s f => AArch64.mapPages_spec hlevels (hcalls c hc).1).of_ok hrun
  rw [AArch64.hwTranslate_eq ht hv]
  unfold lastLeaf
  cases lastCall calls v with
  | none => rfl
  | some c =>
    show Except.ok (Access.mk _ (!!c.attr.write) _) = _
    rw [Bool.not_not]
    rfl

def AArch64.port (pagingMode : Nat) : Port where
  Pagemap := AArch64.Pagemap
  newPagemap := AArch64.newPagemap pagingMode
  mapPages := AArch64.mapPages (AArch64.dsOf pagingMode)
  hwAccess s pagemap v := (AArch64.hwTranslate (AArch64.dsOf pagingMode) s pagemap v).map AArch64.Page.access
  space := AArch64.space (AArch64.dsOf pagingMode)
  bound := 2 ^ AArch64.paBits (AArch64.dsOf pagingMode)
  PageOk := AArch64.PageOk (AArch64.dsOf pagingMode)
  bound_le := by cases AArch64.dsOf pagingMode <;> decide
  bound_aligned := by cases AArch64.dsOf pagingMode <;> decide
  half_ge := by cases AArch64.dsOf pagingMode <;> decide
  overlay hs hcalls hrun := AArch64.port_overlay hs hcalls hrun

def RiscV.Page.access (p : RiscV.Page) : Access := ⟨p.phys, p.writable, p.executable⟩

theorem RiscV.port_overlay {svpbmt : Bool} {mode : RiscV.PagingMode} {pagemap : RiscV.Pagemap}
    (hs : SupplyOk RiscV.PageOk s.supply) (hcalls : ∀ c ∈ calls, c.Plain (RiscV.space mode) (2 ^ 56))
    (hrun : buildPagemap (RiscV.newPagemap mode) (RiscV.mapPages svpbmt) calls s = .ok (pagemap, s')) (v : Nat)
    (hv : (RiscV.space mode).Valid v) :
    (RiscV.hwTranslate svpbmt mode s' pagemap.topLevel v).map RiscV.Page.access =
      match lastCall calls v with
      | none => .error .notMapped
      | some c => .ok (c.access v) := by
  have hattr : ∀ a : Attr, a.fb = false → RiscV.normAttr svpbmt a = a := by
    rintro ⟨w, n, fb⟩ rfl
    rfl
  obtain ⟨-, ht⟩ := (buildPagemap_spec (fun pm _ => pm.topLevel) (RiscV.newPagemap_spec mode hs)
    fun pm hmax c hc s f => RiscV.mapPages_spec hmax (hcalls c hc).1 (hattr _ (hcalls c hc).2)).of_ok hrun
  rw [RiscV.hwTranslate_eq ht hv]
  unfold lastLeaf
  cases lastCall calls v <;> rfl

def RiscV.port (svpbmt : Bool) (mode : RiscV.PagingMode) : Port where
  Pagemap := RiscV.Pagemap
  newPagemap := RiscV.newPagemap mode
  mapPages := RiscV.mapPages svpbmt
  hwAccess s pagemap v := (RiscV.hwTranslate svpbmt mode s pagemap.topLevel v).map RiscV.Page.access
  space := RiscV.space mode
  bound := 2 ^ 56
  PageOk := RiscV.PageOk
  bound_le := Nat.le_refl _
  bound_aligned := by decide
  half_ge := by cases mode <;> decide
  overlay hs hcalls hrun := RiscV.port_overlay hs hcalls hrun

/-- A store needs the dirty bit too. -/
def LoongArch.Page.access (p : LoongArch.Page) : Access := ⟨p.phys, p.writable && p.dirty, !p.noexec⟩

theorem LoongArch.port_overlay {cpucfgVal : BitVec 32} {pagemap : LoongArch.Pagemap}
    (hs : SupplyOk LoongArch.PageOk s.supply) (hcalls : ∀ c ∈ calls, c.Plain LoongArch.space (2 ^ 48))
    (hrun : buildPagemap (LoongArch.newPagemap cpucfgVal) LoongArch.mapPages calls s = .ok (pagemap, s')) (v : Nat)
    (hv : LoongArch.space.Valid v) :
    (LoongArch.hwTranslate (LoongArch.valen cpucfgVal) s' pagemap v).map LoongArch.Page.access =
      match lastCall calls v with
      | none => .error .notMapped
      | some c => .ok (c.access v) := by
  have hvalen : 48 ≤ LoongArch.valen cpucfgVal := by
    by_contra h
    unfold buildPagemap LoongArch.newPagemap at hrun
    rw [if_pos (by omega)] at hrun
    cases hrun
  obtain ⟨-, ht⟩ := (buildPagemap_spec LoongArch.Pagemap.pgd (LoongArch.newPagemap_spec hvalen hs)
    fun pm _ c hc s f => LoongArch.mapPages_spec (hcalls c hc).1).of_ok hrun
  rw [LoongArch.hwTranslate_eq hvalen ht hv]
  unfold lastLeaf
  cases lastCall calls v with
  | none => rfl
  | some c =>
    show Except.ok (Access.mk _ (c.attr.write && c.attr.write) _) = _
    rw [Bool.and_self]
    rfl

def LoongArch.port (cpucfgVal : BitVec 32) : Port where
  Pagemap := LoongArch.Pagemap
  newPagemap := LoongArch.newPagemap cpucfgVal
  mapPages := LoongArch.mapPages
  hwAccess s pagemap v :=
    (LoongArch.hwTranslate (LoongArch.valen cpucfgVal) s pagemap v).map LoongArch.Page.access
  space := LoongArch.space
  bound := 2 ^ 48
  PageOk := LoongArch.PageOk
  bound_le := by decide
  bound_aligned := by decide
  half_ge := by decide
  overlay hs hcalls hrun := LoongArch.port_overlay hs hcalls hrun

end

/-- The 64-bit ports, each with what it finds the processor to have. -/
inductive Machine
  | x86_64 (cpu : X86.Cpu) (pagingMode : Nat)
  | aarch64 (pagingMode : Nat)
  | riscv64 (svpbmt : Bool) (mode : RiscV.PagingMode)
  | loongarch64 (cpucfgVal : BitVec 32)

def Machine.port : Machine → Port
  | .x86_64 cpu pagingMode => X86.port cpu pagingMode
  | .aarch64 pagingMode => AArch64.port pagingMode
  | .riscv64 svpbmt mode => RiscV.port svpbmt mode
  | .loongarch64 cpucfgVal => LoongArch.port cpucfgVal

end Limine.Vmm
