import Limine.Elf.Safety
import Mathlib.Order.Bounds.Defs

/-!
# `elf64_load` against its reference
-/

namespace Limine.Elf
open Limine.Loader Limine.Lib

section
variable {args : LoadArgs} {f : File} {t : Tables}

theorem countRelrTable_eq {relrCount relocsI : Nat} (h : t.InFile f)
    (hrun : countRelocations f t = .ok (relrCount, relocsI)) :
    countRelrTable f t = .ok (relrAddrs f t).length := by
  obtain ⟨n, hn, -⟩ := except_bind_eq_ok.mp hrun
  rw [hn, ((countRelrTable_safely h).of_ok hn).2.1]

/-- The pass that expands DT_RELR writes as many relocations as were counted. -/
theorem expandRelr_counted (h : t.InFile f) (hent : t.relrSize ≠ 0 → t.relrEnt = 8)
    (rest : List RelocPtr) :
    expandRelr f t (poolPtrs (relrAddrs f t).length ++ rest) (t.relrSize / t.relrEnt) 0 0 0
        (List.replicate (relrAddrs f t).length (internal 0)) =
      .ok ((relrAddrs f t).length, (relrAddrs f t).map internal) := by
  by_cases hsize : t.relrSize = 0
  · have hnone : relrAddrs f t = [] := by
      rw [relrAddrs, hsize, Nat.zero_div]
      rfl
    rw [hsize, Nat.zero_div, hnone]
    rfl
  · exact relrPool_eq h (hent hsize) rest

theorem LaidOut.isLeast {isReloc ranges : Bool} {ps : List Elf64Phdr} {s : Layout}
    (h : LaidOut isReloc ranges ps s) (hmin : s.minVaddr ≠ 2 ^ 64 - 1) :
    IsLeast {a | ∃ p ∈ ps, p.vaddr = a} s.minVaddr := by
  refine ⟨h.minMem.resolve_left fun h0 => hmin h0.2, ?_⟩
  rintro a ⟨p, hp, rfl⟩
  exact h.min p hp

/-- **The image `elf64_load` returns is that of the reference**: zeros, the bytes of the segments,
and the relocations of the table in its order, each that lies inside a segment once and no other.
The pass that counts those of DT_RELR and the pass that expands them agree. -/
theorem elf64Load_reference {r : Loaded} (h : elf64Load args f = .ok r) :
    ∃ t lowest image,
      dynamicTables f (elf64Hdr f.byte 0) = .ok (some t) ∧
      IsLeast {a | ∃ p ∈ segments f (elf64Hdr f.byte 0), p.vaddr = a} lowest ∧
      reference args.arch f t.toSymTables r.slide (pageDown lowest) (segments f (elf64Hdr f.byte 0))
        (relocTable f t) = .ok image ∧
      (∀ o, o < r.region.size → r.memory (r.region.base + o) = image o) ∧
      countRelrTable f t = .ok (relrAddrs f t).length ∧
      ∀ rest, expandRelr f t (poolPtrs (relrAddrs f t).length ++ rest) (t.relrSize / t.relrEnt) 0 0 0
          (List.replicate (relrAddrs f t).length (internal 0)) =
        .ok ((relrAddrs f t).length, (relrAddrs f t).map internal) := by
  obtain ⟨relocatable, layout, t, st, hl⟩ := elf64Load_loads h
  have hord := hl.laidOut.ordered fun p hp => segments_loadable hp
  obtain ⟨image, hreference, himage⟩ := hl.built.reference hord
  rw [hl.symbols] at hreference
  refine ⟨t, layout.minVaddr, image, hl.tables, hl.laidOut.isLeast hl.minVaddr, hreference,
    fun o _ => himage o, countRelrTable_eq hl.inFile hl.count,
    expandRelr_counted hl.inFile hl.counted.relrEnt⟩

/-- DT_RELR stands for two addresses; the first of them, 400, holds 0x1234 in the file. -/
theorem elf64Load_reference_small :
    ∃ (r : Loaded) (t : Tables) (image : Bytes), elf64Load plainArgs smallElf = .ok r ∧
      dynamicTables smallElf (elf64Hdr smallElf.byte 0) = .ok (some t) ∧
      relrAddrs smallElf t = [400, 408] ∧ countRelrTable smallElf t = .ok 2 ∧
      (∀ o, o < r.region.size → r.memory (r.region.base + o) = image o) ∧
      (elf64Load plainArgs smallElf).map (fun r => leAt r.memory (r.region.base + 400) 8 - r.slide) =
        .ok 0x1234 := by
  have hmemory : (elf64Load plainArgs smallElf).map
      (fun r => leAt r.memory (r.region.base + 400) 8 - r.slide) = .ok 0x1234 := by decide +kernel
  have haddrs : (dynamicTables smallElf (elf64Hdr smallElf.byte 0)).map
      (fun t => t.map (relrAddrs smallElf)) = .ok (some [400, 408]) := by decide
  cases hrun : elf64Load plainArgs smallElf with
  | error e =>
    rw [hrun] at hmemory
    cases hmemory
  | ok r =>
    obtain ⟨t, lowest, image, htables, -, -, himage, hcount, -⟩ := elf64Load_reference hrun
    rw [htables] at haddrs
    have haddrs : relrAddrs smallElf t = [400, 408] := Option.some.inj (Except.ok.inj haddrs)
    rw [haddrs] at hcount
    rw [hrun] at hmemory
    exact ⟨r, t, image, rfl, htables, haddrs, hcount, himage, hmemory⟩

end

end Limine.Elf
