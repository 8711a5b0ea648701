import Limine.Lib.Coverage
import Limine.Loader.Memory
import Limine.Pmm.Memmap
import Mathlib.Data.List.Sort

/-!
# The place of a relocatable executable

`multiboot2_load` looks for a multiple of the tag's `align` at which the memory is there and nothing
of the loader is in it, upwards from `min_addr` or, for preference 2, downwards from `max_addr`.
-/

namespace Limine.Multiboot

open Limine.Lib Limine.Loader Limine.Pmm

/-! ## The source -/

def fullOverlapCheck (base1 top1 base2 top2 : Nat) : Bool :=
  (base1 ≥ base2 && base1 < top2) && (top1 > base2 && top1 ≤ top2)

/-- The types that `check_usable_memory` takes for memory that is there. -/
def realRam (uefi : Bool) (type : Nat) : Bool :=
  type == memmapUsable || (uefi && type == memmapEfiReclaimable) || type == memmapBootloaderReclaimable ||
    type == memmapKernelAndModules

/-- The loop of `check_usable_memory`, with `overlap_remaining`. -/
def checkUsableFrom (uefi : Bool) (base top : Nat) : Nat → Memmap → Bool
  | _, [] => false
  | remaining, e :: m =>
    if !realRam uefi e.type then checkUsableFrom uefi base top remaining m
    else
      match checkedAdd e.base e.length with
      | none => checkUsableFrom uefi base top remaining m
      | some memmapTop =>
        if fullOverlapCheck base top e.base memmapTop then true
        else if e.base < top && memmapTop > base then
          let overlapBottom := if e.base > base then e.base else base
          let overlapTop := if memmapTop < top then memmapTop else top
          let remaining := sub64 remaining (sub64 overlapTop overlapBottom)
          if remaining = 0 then true else checkUsableFrom uefi base top remaining m
        else checkUsableFrom uefi base top remaining m

def checkUsableMemory (uefi : Bool) (m : Memmap) (base top : Nat) : Bool :=
  checkUsableFrom uefi base top (sub64 top base) m

def loaderMemory (type : Nat) : Bool := type == memmapBootloaderReclaimable || type == memmapKernelAndModules

def overlapsLoaderMemory (m : Memmap) (base top : Nat) : Bool :=
  m.any fun e =>
    loaderMemory e.type &&
      match checkedAdd e.base e.length with
      | none => false
      | some entryTop => e.base < top && entryTop > base

/-- `struct multiboot_header_tag_relocatable`, past its size. -/
structure RelocTag where
  minAddr : Nat
  maxAddr : Nat
  align : Nat
  preference : Nat
  minAddr_lt : minAddr < 2 ^ 32
  maxAddr_lt : maxAddr < 2 ^ 32
  align_lt : align < 2 ^ 32

/-- `ALIGN_UP` on `uint32_t`; `none` is its `onerror`. -/
def alignUp32 (x a : Nat) : Option Nat := if x + (a - 1) < 2 ^ 32 then some ((x + (a - 1)) / a * a) else none

section
variable (uefi : Bool) (m : Memmap) (tag : RelocTag) (length : Nat)

/-- What the search asks of a range. -/
def accepts (base top : Nat) : Bool := checkUsableMemory uefi m base top && !overlapsLoaderMemory m base top

/-- The loop of the search; `none` is `goto reloc_fail`. -/
def relocLoop (ascend : Bool) : Nat → Nat → Nat → Exec (Option Nat)
  | 0, _, _ => .error .outOfFuel
  | fuel + 1, tries, base =>
    match checkedAdd base length with
    | none => .ok none
    | some top =>
      if accepts uefi m base top then .ok (some base)
      else if tries + 1 > 0x100000 then .ok none
      else if ascend then
        match checkedAdd (add64 base tag.align) length with
        | none => .ok none
        | some top =>
          if top > tag.maxAddr then .ok none
          else relocLoop ascend fuel (tries + 1) (add64 base tag.align)
      else if sub64 base tag.minAddr < tag.align then .ok none
      else relocLoop ascend fuel (tries + 1) (sub64 base tag.align)

/-- The search of `multiboot2_load` for `relocated_base`, of an executable of `length` bytes. -/
def relocSearch : Exec (Option Nat) :=
  if tag.align = 0 then .error (.panic "multiboot2: Relocatable tag has align=0")
  else if tag.preference = 2 then
    if length > tag.maxAddr then .ok none
    else
      let base := alignDown (tag.maxAddr - length) tag.align
      if base < tag.minAddr then .ok none else relocLoop uefi m tag length false 0x100001 0 base
  else
    match alignUp32 tag.minAddr tag.align with
    | none => .ok none
    | some base =>
      match checkedAdd base length with
      | none => .ok none
      | some top => if top > tag.maxAddr then .ok none else relocLoop uefi m tag length true 0x100001 0 base

end

/-- The checks of `multiboot2_load` after the search, whose failure is `reloc_fail` as well. -/
def checkTarget (uefi : Bool) (m : Memmap) (target length entryPoint : Nat) : Exec Unit :=
  if target > 0x100000000 || length > 0xffffffff || length > 0x100000000 - target then
    .error (.panic "multiboot2: Executable does not fit under 4GiB")
  else if !checkUsableMemory uefi m target (target + length) then
    .error (.panic "multiboot2: Could not find viable load address for executable")
  else if entryPoint < target || entryPoint ≥ target + length then
    .error (.panic "multiboot2: Entry point is outside the executable")
  else .ok ()

/-! ## Memory that is there -/

/-- Memory whose end `uint64_t` holds; the other entries are passed over. -/
def lowRam (uefi : Bool) (e : MemmapEntry) : Bool := realRam uefi e.type && decide e.NoOverflow

def ramIntervals (uefi : Bool) (m : Memmap) : List (Nat × Nat) :=
  (m.filter (lowRam uefi)).map fun e => (e.base, e.base + e.length)

section
variable {uefi : Bool} {m : Memmap} {base top : Nat}

theorem lowRam_iff {e : MemmapEntry} :
    lowRam uefi e = true ↔ realRam uefi e.type = true ∧ e.base + e.length < 2 ^ 64 := by
  unfold lowRam
  rw [Bool.and_eq_true, decide_eq_true_eq]
  rfl

theorem checkUsableFrom_skip {e : MemmapEntry} (he : lowRam uefi e = false) (remaining : Nat) :
    checkUsableFrom uefi base top remaining (e :: m) = checkUsableFrom uefi base top remaining m := by
  rw [checkUsableFrom]
  split
  · rfl
  · next hram =>
    have hover : checkedAdd e.base e.length = none := by
      refine if_neg fun hlt => ?_
      have hlow := lowRam_iff.mpr ⟨by simpa using hram, hlt⟩
      rw [he] at hlow
      cases hlow
    rw [hover]

/-- The loop compares what is left with what the rest of the map covers. -/
theorem checkUsableFrom_iff (hwindow : base < top) (htop : top < 2 ^ 64) : ∀ {m : Memmap} (remaining : Nat),
    0 < remaining → remaining ≤ top - base → ((ramIntervals uefi m).map (overlap base top)).sum ≤ remaining →
    (checkUsableFrom uefi base top remaining m = true ↔
      ((ramIntervals uefi m).map (overlap base top)).sum = remaining) := by
  intro m
  induction m with
  | nil =>
    intro remaining hpos _ _
    simp only [checkUsableFrom, ramIntervals, List.filter_nil, List.map_nil, List.sum_nil]
    constructor
    · intro h
      cases h
    · omega
  | cons e m ih =>
    intro remaining hpos hle hsum
    cases hlow : lowRam uefi e with
    | false =>
      have hcons : ramIntervals uefi (e :: m) = ramIntervals uefi m := by
        unfold ramIntervals
        rw [List.filter_cons_of_neg (by simp [hlow])]
      rw [checkUsableFrom_skip hlow, hcons]
      rw [hcons] at hsum
      exact ih remaining hpos hle hsum
    | true =>
      obtain ⟨hram, hlt⟩ := lowRam_iff.mp hlow
      have hcons : ((ramIntervals uefi (e :: m)).map (overlap base top)).sum =
          overlap base top (e.base, e.base + e.length) + ((ramIntervals uefi m).map (overlap base top)).sum := by
        unfold ramIntervals
        rw [List.filter_cons_of_pos hlow]
        rfl
      rw [hcons] at hsum ⊢
      rw [checkUsableFrom, if_neg (by simp [hram]), checkedAdd_eq_some hlt]
      generalize hrest : ((ramIntervals uefi m).map (overlap base top)).sum = rest at *
      unfold overlap at hsum ⊢
      dsimp only at hsum ⊢
      by_cases hfull : fullOverlapCheck base top e.base (e.base + e.length) = true
      · rw [if_pos hfull]
        unfold fullOverlapCheck at hfull
        simp only [Bool.and_eq_true, decide_eq_true_eq] at hfull
        simp only [true_iff]
        omega
      · rw [if_neg hfull]
        by_cases hpart : e.base < top ∧ e.base + e.length > base
        · rw [if_pos (by simpa using hpart)]
          have hbottom : (if e.base > base then e.base else base) = max e.base base := by split <;> omega
          have htops : (if e.base + e.length < top then e.base + e.length else top) = min (e.base + e.length) top := by
            split <;> omega
          rw [hbottom, htops, sub64_eq (a := min _ _) (by omega) (by omega), sub64_eq (by omega) (by omega)]
          split
          · next hzero =>
            simp only [true_iff]
            omega
          · next hleft =>
            have hih := ih (remaining - (min (e.base + e.length) top - max e.base base)) (by omega)
              (by omega) (by omega)
            rw [hih]
            omega
        · rw [if_neg (by simpa using hpart)]
          have hih := ih remaining hpos hle (by omega)
          rw [hih]
          omega

/-- The memory entries are apart from each other. -/
def RamDisjoint (uefi : Bool) (m : Memmap) : Prop :=
  (m.filter fun e => realRam uefi e.type).Pairwise fun e r => Disjoint e.span r.span

/-- As `RamDisjoint`, of the entries whose end `uint64_t` holds. -/
def LowRamDisjoint (uefi : Bool) (m : Memmap) : Prop :=
  (m.filter (lowRam uefi)).Pairwise fun e r => Disjoint e.span r.span

theorem RamDisjoint.low (hm : RamDisjoint uefi m) : LowRamDisjoint uefi m :=
  hm.sublist (List.monotone_filter_right m fun _ he => (lowRam_iff.mp he).1)

theorem exists_ramIntervals {a : Nat} :
    (∃ i ∈ ramIntervals uefi m, i.1 ≤ a ∧ a < i.2) ↔ ∃ e ∈ m, lowRam uefi e = true ∧ a ∈ e.span := by
  constructor
  · rintro ⟨i, hi, hlow, hhigh⟩
    obtain ⟨e, he, rfl⟩ := List.mem_map.mp hi
    obtain ⟨he, hram⟩ := List.mem_filter.mp he
    exact ⟨e, he, hram, hlow, hhigh⟩
  · rintro ⟨e, he, hram, hlow, hhigh⟩
    exact ⟨_, List.mem_map_of_mem (List.mem_filter.mpr ⟨he, hram⟩), hlow, hhigh⟩

/-- The remainder reaches zero where the parts in the range, which are disjoint, add up to it. -/
theorem checkUsableMemory_card (hm : LowRamDisjoint uefi m) (hwindow : base < top) (htop : top < 2 ^ 64) :
    checkUsableMemory uefi m base top = true ↔
      (coveredIn base top (ramIntervals uefi m)).card = top - base := by
  have hapart : (ramIntervals uefi m).Pairwise fun i j => i.1 = i.2 ∨ j.1 = j.2 ∨ i.2 ≤ j.1 ∨ j.2 ≤ i.1 := by
    refine List.pairwise_map.mpr (hm.imp fun {e r} hdisjoint => ?_)
    have hcases := MemmapEntry.span_disjoint_iff.mp hdisjoint
    dsimp only
    omega
  have hsum := sum_overlap_eq_card base top hapart
  have hle := card_coveredIn_le base top (ramIntervals uefi m)
  unfold checkUsableMemory
  rw [sub64_eq (by omega) htop, checkUsableFrom_iff hwindow htop _ (by omega) (Nat.le_refl _) (by omega), hsum]

theorem checkUsableMemory_iff (hm : RamDisjoint uefi m) (hwindow : base < top) (htop : top < 2 ^ 64) :
    checkUsableMemory uefi m base top = true ↔
      ∀ a, base ≤ a → a < top → ∃ e ∈ m, lowRam uefi e = true ∧ a ∈ e.span := by
  rw [checkUsableMemory_card hm.low hwindow htop, card_coveredIn_eq_iff]
  simp only [exists_ramIntervals]

/-- `check_usable_memory` is exact, in whatever order the entries are, and whatever overlaps them that is no
memory or does not end inside 64 bits. -/
theorem checkUsableMemory_exact (uefi : Bool) (m : Memmap) (base top : Nat) (hm : LowRamDisjoint uefi m)
    (hwindow : base < top) (htop : top < 2 ^ 64) :
    checkUsableMemory uefi m base top = true ↔
      ∀ a, base ≤ a → a < top → ∃ e ∈ m, realRam uefi e.type = true ∧ e.NoOverflow ∧ a ∈ e.span := by
  rw [checkUsableMemory_card hm hwindow htop, card_coveredIn_eq_iff]
  refine forall_congr' fun a => forall_congr' fun _ => forall_congr' fun _ => ?_
  rw [exists_ramIntervals]
  refine exists_congr fun e => and_congr_right fun _ => ?_
  rw [lowRam_iff, and_assoc]
  rfl

/-- A range over two kinds of memory that are out of order, with a reserved entry across both and one that
overflows. -/
theorem checkUsableMemory_exact_split : LowRamDisjoint true
      [⟨0x3000, 0x2000, memmapEfiReclaimable⟩, ⟨0x2000, 0x2000, memmapReserved⟩,
        ⟨0x2000, 2 ^ 64 - 1, memmapUsable⟩, ⟨0x1000, 0x2000, memmapUsable⟩] ∧
    ∀ a, 0x1800 ≤ a → a < 0x4800 → ∃ e ∈ ([⟨0x3000, 0x2000, memmapEfiReclaimable⟩,
        ⟨0x2000, 0x2000, memmapReserved⟩, ⟨0x2000, 2 ^ 64 - 1, memmapUsable⟩,
        ⟨0x1000, 0x2000, memmapUsable⟩] : Memmap), realRam true e.type = true ∧ e.NoOverflow ∧ a ∈ e.span :=
  have hm : LowRamDisjoint true
      [⟨0x3000, 0x2000, memmapEfiReclaimable⟩, ⟨0x2000, 0x2000, memmapReserved⟩,
        ⟨0x2000, 2 ^ 64 - 1, memmapUsable⟩, ⟨0x1000, 0x2000, memmapUsable⟩] := by
    unfold LowRamDisjoint
    decide
  ⟨hm, (checkUsableMemory_exact true _ 0x1800 0x4800 hm (by decide) (by decide)).mp (by decide)⟩

theorem overlapsLoaderMemory_eq_false_iff : overlapsLoaderMemory m base top = false ↔
    ∀ e ∈ m, loaderMemory e.type = true → e.base + e.length < 2 ^ 64 → top ≤ e.base ∨ e.base + e.length ≤ base := by
  unfold overlapsLoaderMemory
  rw [List.any_eq_false]
  refine forall_congr' fun e => forall_congr' fun _ => ?_
  cases hloader : loaderMemory e.type with
  | false => simp
  | true =>
    by_cases hlt : e.base + e.length < 2 ^ 64
    · simp only [checkedAdd_eq_some hlt, Bool.true_and, Bool.and_eq_true, decide_eq_true_eq, true_implies, hlt]
      omega
    · have hover : checkedAdd e.base e.length = none := if_neg hlt
      simp only [hover, Bool.and_false, Bool.false_eq_true, not_false_eq_true, true_iff]
      exact fun _ h => absurd h hlt

/-! ## What the search is for -/

/-- The whole range is memory that is there. -/
def InRam (uefi : Bool) (m : Memmap) (base top : Nat) : Prop :=
  ∀ a, base ≤ a → a < top → ∃ e ∈ m, realRam uefi e.type = true ∧ a ∈ e.span

/-- Nothing in the range is the loader's or a module's. -/
def ClearOfLoader (m : Memmap) (base top : Nat) : Prop :=
  ∀ e ∈ m, loaderMemory e.type = true → ∀ a, base ≤ a → a < top → a ∉ e.span

/-- The entries that the code misjudges play no part in the range: those whose end `uint64_t` does not
hold, and those of the loader that are empty. -/
structure Ordinary (uefi : Bool) (m : Memmap) (base top : Nat) : Prop where
  low : ∀ a, base ≤ a → a < top → ∃ e ∈ m, lowRam uefi e = true ∧ a ∈ e.span
  nonempty : ∀ e ∈ m, loaderMemory e.type = true → e.length = 0 → top ≤ e.base ∨ e.base ≤ base

theorem realRam_of_loaderMemory {type : Nat} (h : loaderMemory type = true) : realRam uefi type = true := by
  unfold loaderMemory at h
  unfold realRam
  rcases Bool.or_eq_true_iff.mp h with h | h <;> simp [h]

theorem accepts_iff (hm : RamDisjoint uefi m) (hwindow : base < top) (htop : top < 2 ^ 64) :
    accepts uefi m base top = true ↔
      (InRam uefi m base top ∧ ClearOfLoader m base top) ∧ Ordinary uefi m base top := by
  unfold accepts
  rw [Bool.and_eq_true, Bool.not_eq_true', checkUsableMemory_iff hm hwindow htop, overlapsLoaderMemory_eq_false_iff]
  constructor
  · rintro ⟨hlow, hloader⟩
    refine ⟨⟨fun a ha ha' => ?_, fun e he htype a ha ha' hin => ?_⟩, hlow, fun e he htype hempty => ?_⟩
    · obtain ⟨e, he, hram, hin⟩ := hlow a ha ha'
      exact ⟨e, he, (lowRam_iff.mp hram).1, hin⟩
    · rw [MemmapEntry.mem_span] at hin
      by_cases hlt : e.base + e.length < 2 ^ 64
      · have hout := hloader e he htype hlt
        omega
      · -- the address is in another entry as well
        obtain ⟨r, hr, hram, hin'⟩ := hlow a ha ha'
        obtain ⟨hram, hlt'⟩ := lowRam_iff.mp hram
        have hne : e ≠ r := by
          rintro rfl
          exact hlt hlt'
        have hsymm : Std.Symm fun e r : MemmapEntry => Disjoint e.span r.span := ⟨fun _ _ h => h.symm⟩
        have hdisjoint := List.Pairwise.forall hm
          (List.mem_filter.mpr ⟨he, realRam_of_loaderMemory htype⟩) (List.mem_filter.mpr ⟨hr, hram⟩) hne
        exact Set.disjoint_left.mp hdisjoint hin hin'
    · by_cases hlt : e.base + e.length < 2 ^ 64
      · have hout := hloader e he htype hlt
        omega
      · omega
  · rintro ⟨⟨-, hclear⟩, hlow, hnonempty⟩
    refine ⟨hlow, fun e he htype hlt => ?_⟩
    by_cases hempty : e.length = 0
    · have hout := hnonempty e he htype hempty
      omega
    · have hat := hclear e he htype (max e.base base)
      rw [MemmapEntry.mem_span] at hat
      omega

end

end Limine.Multiboot
