import Limine.Vmm.Ports
import Limine.Vmm.X86Split
import Limine.Elf.Ranges
import Limine.Elf.Safety

/-!
# `build_pagemap` of the Limine protocol

The ranges of the executable are mapped one after the other, so a page that two of them cover keeps
what the last one asks for.  As ranges that meet agree, the order does not matter.
-/

namespace Limine.Protos
open Limine.Loader Limine.Lib Limine.Elf Limine.Vmm

/-- What `build_pagemap` asks of `map_pages` for a range. -/
def rangeCall (nx : Bool) (physicalBase virtualBase : Nat) (range : MemRange) : MapCall where
  virt := range.base
  phys := add64 physicalBase (sub64 range.base virtualBase)
  count := range.length
  attr :=
    { write := range.permissions &&& memRangeW != 0
      noexec := range.permissions &&& memRangeX == 0 && nx
      fb := false }

def mapRange (port : Port) (nx : Bool) (physicalBase virtualBase : Nat) (pagemap : port.Pagemap)
    (range : MemRange) : VmmM Unit :=
  if range.base &&& (1 <<< 63) ≠ 0 then port.mapPages pagemap (rangeCall nx physicalBase virtualBase range)
  else Vmm.panic "limine: Virtual address of a PHDR in lower half"

/-- `build_pagemap`, with the calls for the rest of memory as they follow. -/
def buildPagemap (port : Port) (nx : Bool) (ranges : List MemRange) (physicalBase virtualBase : Nat)
    (rest : List MapCall) : VmmM port.Pagemap := do
  let pagemap ← port.newPagemap
  if ranges.length = 0 then Vmm.panic "limine: ranges_count == 0"
  else do
    mapCalls (mapRange port nx physicalBase virtualBase pagemap) ranges
    mapCalls (port.mapPages pagemap) rest
    return pagemap

section
variable {port : Port} {nx : Bool} {physicalBase virtualBase : Nat} {pagemap : port.Pagemap}

theorem and_bit63 {x : Nat} (hx : x < 2 ^ 64) : x &&& (1 <<< 63) ≠ 0 ↔ 2 ^ 63 ≤ x := by
  have hbit : x &&& (1 <<< 63) = 2 ^ 63 * (x.testBit 63).toNat := by
    rw [Nat.one_shiftLeft, Nat.and_two_pow, Nat.mul_comm]
  have htest : x.testBit 63 = decide (2 ^ 63 ≤ x) := by
    rw [Nat.testBit_eq_decide_div_mod_eq]
    congr 1
    apply propext
    omega
  rw [hbit, htest]
  simp

/-- Where the loop over the ranges returns, it has mapped them all. -/
theorem mapRanges_ok {ranges : List MemRange} {s s' : Memory}
    (h : mapCalls (mapRange port nx physicalBase virtualBase pagemap) ranges s = .ok ((), s')) :
    (∀ a ∈ ranges, a.base &&& (1 <<< 63) ≠ 0) ∧
      mapCalls (port.mapPages pagemap) (ranges.map (rangeCall nx physicalBase virtualBase)) s = .ok ((), s') := by
  induction ranges generalizing s with
  | nil => exact ⟨by simp, h⟩
  | cons a ranges ih =>
    obtain ⟨_, s₁, hone, hrest⟩ := bind_eq_ok h
    unfold mapRange at hone
    by_cases hhigh : a.base &&& (1 <<< 63) ≠ 0
    · rw [if_pos hhigh] at hone
      obtain ⟨hall, hcalls⟩ := ih hrest
      refine ⟨List.forall_mem_cons.mpr ⟨hhigh, hall⟩, ?_⟩
      show (port.mapPages pagemap _ >>= fun _ => mapCalls _ _) s = _
      rw [bind_of_ok hone]
      exact hcalls
    · rw [if_neg hhigh] at hone
      cases hone

theorem buildPagemap_ok {ranges : List MemRange} {rest : List MapCall} {s s' : Memory}
    (h : buildPagemap port nx ranges physicalBase virtualBase rest s = .ok (pagemap, s')) :
    (∀ a ∈ ranges, a.base &&& (1 <<< 63) ≠ 0) ∧
      Vmm.buildPagemap port.newPagemap port.mapPages
        (ranges.map (rangeCall nx physicalBase virtualBase) ++ rest) s = .ok (pagemap, s') := by
  obtain ⟨pm, s₁, hnew, h⟩ := bind_eq_ok h
  by_cases hempty : ranges.length = 0
  · rw [if_pos hempty] at h
    cases h
  · rw [if_neg hempty] at h
    obtain ⟨_, s₂, hranges, h⟩ := bind_eq_ok h
    obtain ⟨_, s₃, hrest, h⟩ := bind_eq_ok h
    obtain ⟨rfl, rfl⟩ := Prod.mk.inj (Except.ok.inj h)
    obtain ⟨hhigh, hcalls⟩ := mapRanges_ok hranges
    refine ⟨hhigh, ?_⟩
    unfold Vmm.buildPagemap
    rw [bind_of_ok hnew, mapCalls_append, bind_assoc, bind_of_ok hcalls, bind_of_ok hrest]
    rfl

end

/-! ## The image in the page tables -/

section
variable {r : Loaded} {ps : List Elf64Phdr} {base : Nat} {nx : Bool}

/-- **The call for the range of a segment** maps the segment's pages to those of its memory. -/
theorem rangeCall_ok {port : Port} (hplaced : Placed r ps base) (hregion : 4096 ∣ r.region.base)
    (hbound : r.region.base + r.region.size ≤ port.bound) {p : Elf64Phdr} (hp : p ∈ ps) {a : MemRange}
    (ha : IsHull r.slide p a) :
    (rangeCall nx r.region.base r.virtualBase a).Plain port.space port.bound ∧
      ∀ v, a.base ≤ v →
        (rangeCall nx r.region.base r.virtualBase a).access v =
          ⟨r.region.base + (v - r.virtualBase), p.flags &&& elfPfW != 0, p.flags &&& elfPfX != 0 || !nx⟩ := by
  obtain ⟨first, top, hbase, hend, hfirst, htop, hle, hsize, hlt⟩ := hplaced.hull hp ha
  have hpage := port.bound_aligned
  have hbound64 := port.bound_le
  have hphys : add64 r.region.base (sub64 a.base r.virtualBase) = r.region.base + first := by
    rw [sub64_eq (by omega) (by omega), add64_eq (by omega)]
    omega
  have hvirt := hplaced.aligned
  have hhigh := hplaced.high
  have hhalf : 2 ^ 38 ≤ 2 ^ port.space.half := Nat.pow_le_pow_right (by decide) port.half_ge
  refine ⟨⟨⟨?_, ?_, ?_, Or.inr ⟨?_, ?_⟩, ?_⟩, rfl⟩, fun v hv => ?_⟩
  · show 4096 ∣ a.base
    omega
  · show 4096 ∣ add64 _ _
    rw [hphys]
    omega
  · show 4096 ∣ a.length
    omega
  · show _ ≤ a.base
    unfold fixedHigherHalfOffset64 at hhigh
    omega
  · show a.base + a.length ≤ _
    omega
  · show add64 _ _ + a.length ≤ _
    rw [hphys]
    omega
  · obtain ⟨hwrite, hexec⟩ := permissionsOf_bits p.flags
    unfold MapCall.access rangeCall
    rw [ha.permissions, hwrite, hexec, hphys]
    congr 1
    · show r.region.base + first + (v - a.base) = _
      omega
    · rw [Bool.not_and]
      rfl

/-- A call for a range that has `v` decides on it, wherever it comes among the others. -/
theorem lastCall_access {calls : List MapCall} {v : Nat} {x : Access}
    (hsome : ∃ c ∈ calls, c.virt ≤ v ∧ v < c.virt + c.count)
    (hall : ∀ c ∈ calls, c.virt ≤ v → v < c.virt + c.count → c.access v = x) :
    ∃ c, lastCall calls v = some c ∧ c.access v = x := by
  cases h : lastCall calls v with
  | none =>
    obtain ⟨c, hc, hin⟩ := hsome
    have hnone := List.find?_eq_none.mp h c (List.mem_reverse.mpr hc)
    exact absurd hin (by simpa using hnone)
  | some c =>
    obtain ⟨hc, h1, h2⟩ := lastCall_eq_some h
    exact ⟨c, rfl, hall c hc h1 h2⟩

/-- Calls for other memory, away from the executable. -/
def Elsewhere (port : Port) (ranges : List MemRange) (c : MapCall) : Prop :=
  c.Plain port.space port.bound ∧ ∀ a ∈ ranges, c.virt + c.count ≤ a.base ∨ a.base + a.length ≤ c.virt

theorem pagemap_access {args : LoadArgs} {f : File} {hdr : Elf64Hdr} {relocatable : Bool} {layout : Layout}
    {t : Tables} {st : RelocState} (hl : Loads args f hdr r relocatable layout t st)
    (hranges : args.ranges = true) {port : Port} {ranges : List MemRange} {rest : List MapCall}
    {s s' : Memory} {pagemap : port.Pagemap} (hbound : r.region.base + r.region.size ≤ port.bound)
    (hperm : ranges.Perm r.ranges) (hs : SupplyOk port.PageOk s.supply)
    (hrest : ∀ c ∈ rest, Elsewhere port r.ranges c)
    (hrun : buildPagemap port nx ranges r.region.base r.virtualBase rest s = .ok (pagemap, s'))
    {p : Elf64Phdr} (hp : p ∈ segments f hdr) {v : Nat} (hv : Touches r.slide p v) :
    port.hwAccess s' pagemap v = .ok ⟨r.region.base + (v - r.virtualBase), p.flags &&& elfPfW != 0,
      p.flags &&& elfPfX != 0 || !nx⟩ := by
  obtain ⟨hlist, hhull⟩ := hl.ranges_eq hranges
  obtain ⟨hhigh, hcalls⟩ := buildPagemap_ok hrun
  have hrange : ∀ a, a ∈ ranges ↔ ∃ q ∈ segments f hdr, rangeOf r.slide q = a := by
    intro a
    rw [hperm.mem_iff, hlist, List.mem_map]
  -- the loop has seen that no range is in the lower half
  have hplaced : Placed r (segments f hdr) layout.base := by
    have hsize := port.bound_le
    refine hl.placed (by omega) fun q hq => ?_
    have hbit := hhigh _ ((hrange _).mpr ⟨q, hq, rfl⟩)
    have hfits := (hhull q hq).fits
    have hdown := pageDown_le (add64 q.vaddr r.slide)
    rw [(hhull q hq).base] at hbit
    exact (and_bit63 (by omega)).mp hbit
  have hcall : ∀ q ∈ segments f hdr, (rangeCall nx r.region.base r.virtualBase (rangeOf r.slide q)).Plain
      port.space port.bound ∧ _ := fun q hq =>
    rangeCall_ok hplaced hl.regionAligned hbound hq (hhull q hq)
  have hplain : ∀ c ∈ ranges.map (rangeCall nx r.region.base r.virtualBase) ++ rest,
      c.Plain port.space port.bound := by
    intro c hc
    rcases List.mem_append.mp hc with hc | hc
    · obtain ⟨a, ha, rfl⟩ := List.mem_map.mp hc
      obtain ⟨q, hq, rfl⟩ := (hrange a).mp ha
      exact (hcall q hq).1
    · exact (hrest c hc).1
  have hin := ((hhull p hp).touches_iff v).mp hv
  have hagree : ∀ q ∈ segments f hdr, Touches r.slide q v → ∀ m, 0b111 &&& m = m → q.flags &&& m = p.flags &&& m :=
    fun q hq hqv m hm => flags_congr (hl.agree hranges hq hp hqv hv) hm
  have hmem := (hrange _).mpr ⟨p, hp, rfl⟩
  -- whatever call has the last word on `v`, it is for a segment that agrees
  have hall : ∀ c ∈ ranges.map (rangeCall nx r.region.base r.virtualBase) ++ rest, c.virt ≤ v →
      v < c.virt + c.count → c.access v = ⟨r.region.base + (v - r.virtualBase), p.flags &&& elfPfW != 0,
        p.flags &&& elfPfX != 0 || !nx⟩ := by
    intro c hc h1 h2
    rcases List.mem_append.mp hc with hc | hc
    · obtain ⟨a, ha, rfl⟩ := List.mem_map.mp hc
      obtain ⟨q, hq, rfl⟩ := (hrange a).mp ha
      have hqv := ((hhull q hq).touches_iff v).mpr ⟨h1, h2⟩
      rw [(hcall q hq).2 v h1, hagree q hq hqv elfPfW rfl, hagree q hq hqv elfPfX rfl]
    · have hfar := (hrest c hc).2 (rangeOf r.slide p) (by rw [hlist]; exact List.mem_map_of_mem hp)
      omega
  obtain ⟨c, hc, haccess⟩ := lastCall_access ⟨_, List.mem_append_left rest (List.mem_map_of_mem hmem), hin⟩ hall
  have hover := port.overlay hs hplain hcalls v (((hcall p hp).1.1).valid hin.1 hin.2)
  rw [hover, hc]
  exact congrArg Except.ok haccess

/-- **The permissions of an executable's pages are unambiguous**: the segments ascend and are
disjoint, the ranges are their hulls in pages, ranges that meet agree, and in whatever order the
ranges are mapped, every page of a segment may be written if and only if the segment asks for it,
and executed if and only if the segment asks for it or there is no NX. -/
theorem elf64Load_pagemap {args : LoadArgs} {f : File} (hload : elf64Load args f = .ok r)
    (hranges : args.ranges = true) :
    (segments f (elf64Hdr f.byte 0)).Pairwise (fun p q => p.top ≤ q.vaddr) ∧
    List.Forall₂ (IsHull r.slide) (segments f (elf64Hdr f.byte 0)) r.ranges ∧
    (∀ a ∈ r.ranges, ∀ b ∈ r.ranges, a.Meets b → a.permissions = b.permissions) ∧
    ∀ (machine : Machine) (nx : Bool) (ranges : List MemRange) (rest : List MapCall) (s s' : Memory)
      (pagemap : machine.port.Pagemap),
      r.region.base + r.region.size ≤ machine.port.bound → SupplyOk machine.port.PageOk s.supply →
      ranges.Perm r.ranges → (∀ c ∈ rest, Elsewhere machine.port r.ranges c) →
      buildPagemap machine.port nx ranges r.region.base r.virtualBase rest s = .ok (pagemap, s') →
      ∀ p ∈ segments f (elf64Hdr f.byte 0), ∀ v, Touches r.slide p v →
        machine.port.hwAccess s' pagemap v = .ok ⟨r.region.base + (v - r.virtualBase),
          p.flags &&& elfPfW != 0, p.flags &&& elfPfX != 0 || !nx⟩ := by
  obtain ⟨relocatable, layout, t, st, hl⟩ := elf64Load_loads hload
  obtain ⟨hlist, hhull⟩ := hl.ranges_eq hranges
  refine ⟨hl.laidOut.sorted, ?_, fun a ha b hb => hl.ranges_agree hranges ha hb, ?_⟩
  · rw [hlist, List.forall₂_map_right_iff, List.forall₂_same]
    exact hhull
  · intro machine nx ranges rest s s' pagemap hbound hs hperm hrest hrun p hp v hv
    exact pagemap_access hl hranges hbound hperm hs hrest hrun hp hv

end

/-! ## An executable that asks for no execution -/

/-- A processor with 1 GiB pages, the PAT and 48 physical bits, in 4-level paging. -/
def plainMachine : Machine := .x86_64 X86.patCpu 0

/-- Memory with six pages to come. -/
def sixPages : Memory := ⟨fun _ _ => 0, [0x10000, 0x11000, 0x12000, 0x13000, 0x14000, 0x15000]⟩

/-- The ranges of the two segments of `smallElf`, of which the second begins in the page of the first. -/
def smallRanges : List MemRange := [⟨0xffffffff80000000, 0x1000, 6⟩, ⟨0xffffffff80000000, 0x2000, 6⟩]

theorem smallElf_ranges : (elf64Load plainArgs smallElf).map (fun r =>
    (r.ranges, r.region.base, r.region.size, r.virtualBase, r.slide)) =
      .ok (smallRanges, 0x1000, 0x1190, 0xffffffff80000000, 0xffffffff80000000) := by
  decide +kernel

theorem smallElf_loads : ∃ r, elf64Load plainArgs smallElf = .ok r ∧ r.ranges = smallRanges ∧
    r.region.base = 0x1000 ∧ r.region.size = 0x1190 ∧ r.virtualBase = 0xffffffff80000000 ∧
    r.slide = 0xffffffff80000000 := by
  have hrun := smallElf_ranges
  cases hload : elf64Load plainArgs smallElf with
  | error e =>
    rw [hload] at hrun
    cases hrun
  | ok r =>
    rw [hload] at hrun
    exact ⟨r, rfl, by simpa using Except.ok.inj hrun⟩

/-- The second segment. -/
def smallSegment : Elf64Phdr := ⟨ptLoad, 6, 384, 400, 8, 0x1000, 1⟩

theorem smallSegment_mem : smallSegment ∈ segments smallElf (elf64Hdr smallElf.byte 0) := by decide

theorem sixPages_ok : SupplyOk plainMachine.port.PageOk sixPages.supply := by
  have h : SupplyOk (X86.PageOk X86.patCpu) sixPages.supply := ⟨by decide, by decide⟩
  exact h

/-- The ranges mapped the other way round. -/
theorem elf64Load_pagemap_small :
    ∃ pagemap s', buildPagemap plainMachine.port true smallRanges.reverse 0x1000 0xffffffff80000000 [] sixPages =
        .ok (pagemap, s') ∧
      plainMachine.port.hwAccess s' pagemap 0xffffffff80000190 = .ok ⟨0x1190, true, false⟩ := by
  obtain ⟨r, hload, hranges, hbase, hsize, hvirt, hslide⟩ := smallElf_loads
  obtain ⟨pagemap, s', hrun⟩ : ∃ pagemap s', buildPagemap plainMachine.port true smallRanges.reverse 0x1000
      0xffffffff80000000 [] sixPages = .ok (pagemap, s') := exists_of_isOk (by decide +kernel)
  refine ⟨pagemap, s', hrun, ?_⟩
  have h := (elf64Load_pagemap hload rfl).2.2.2 plainMachine true smallRanges.reverse [] sixPages s' pagemap
    (by rw [hbase, hsize]; decide) sixPages_ok (by rw [hranges]; exact List.reverse_perm _) (by simp)
    (by rw [hbase, hvirt]; exact hrun) smallSegment smallSegment_mem 0xffffffff80000190
    (by rw [hslide]; exact ⟨by decide, by decide⟩)
  rw [hbase, hvirt] at h
  exact h

/-- Without NX a page that no segment wants to execute can be executed. -/
theorem elf64Load_pagemap_noNx :
    ∃ r p v pagemap s', elf64Load plainArgs smallElf = .ok r ∧
      buildPagemap plainMachine.port false r.ranges r.region.base r.virtualBase [] sixPages = .ok (pagemap, s') ∧
      p ∈ segments smallElf (elf64Hdr smallElf.byte 0) ∧ Touches r.slide p v ∧ p.flags &&& elfPfX = 0 ∧
      (plainMachine.port.hwAccess s' pagemap v).map Access.exec = .ok true := by
  obtain ⟨r, hload, hranges, hbase, hsize, hvirt, hslide⟩ := smallElf_loads
  obtain ⟨relocatable, layout, t, st, hl⟩ := elf64Load_loads hload
  have hrun : ∃ pagemap s', buildPagemap plainMachine.port false r.ranges r.region.base r.virtualBase []
      sixPages = .ok (pagemap, s') := by
    rw [hranges, hbase, hvirt]
    exact exists_of_isOk (by decide +kernel)
  obtain ⟨pagemap, s', hrun⟩ := hrun
  have hv : Touches r.slide smallSegment 0xffffffff80000190 := by
    rw [hslide]
    exact ⟨by decide, by decide⟩
  have h := pagemap_access hl rfl (by rw [hbase, hsize]; decide) (List.Perm.refl _) sixPages_ok (by simp) hrun
    smallSegment_mem hv
  refine ⟨r, smallSegment, _, pagemap, s', hload, hrun, smallSegment_mem, hv, by decide, ?_⟩
  rw [h]
  rfl

end Limine.Protos
