import Limine.Protos.Pagemap
import Limine.Protos.PagingMode
import Limine.Pmm.Memmap

/-!
# The higher half direct map

After the executable's ranges `build_pagemap` maps the memory map's entries at the offset of the
direct map.  Entries that meet end to end are put together in a pending range, which is flushed when
the next entry does not continue it; framebuffers are mapped again, with their own memory type.

An address is 64 bits, so a call that passes the end of the address space goes on at its start.
-/

namespace Limine.Protos
open Limine.Loader Limine.Lib Limine.Elf Limine.Vmm Limine.Pmm

/-! ## The calls -/

/-- The types that the direct map leaves out. -/
def directMapSkips (baseRevision type : Nat) : Bool :=
  ((1 ≤ baseRevision && baseRevision < 3 || 4 ≤ baseRevision) &&
    (type == memmapReserved || type == memmapBadMemory)) ||
  (baseRevision == 3 &&
    (type != memmapUsable && type != memmapBootloaderReclaimable && type != memmapKernelAndModules &&
      type != memmapFramebuffer && type != memmapEfiReclaimable))

/-- Below revision 3 the first 4 GiB are mapped whole, and entries only from there. -/
def hhdmBase (baseRevision base : Nat) : Nat :=
  if baseRevision < 3 ∧ base < 0x100000000 then 0x100000000 else base

/-- A range `[base, top)` of whole pages. -/
structure PageRange where
  base : Nat
  top : Nat
deriving DecidableEq, Repr

/-- What the loop does with an entry. -/
inductive EntryStep
  | flush
  | skip
  | range (r : PageRange)
deriving DecidableEq, Repr

def entryStep (baseRevision : Nat) (e : MemmapEntry) : EntryStep :=
  if directMapSkips baseRevision e.type then .flush
  else match checkedAdd e.base e.length with
    | none => .flush
    | some top =>
      let base := hhdmBase baseRevision e.base
      if top ≤ base then .flush
      else match alignUp top 0x1000 with
        -- `continue`, past the flush
        | none => .skip
        | some alignedTop => .range ⟨alignDown base 0x1000, alignedTop⟩

def flushPending (pending : PageRange) : List PageRange :=
  if pending.base < pending.top then [pending] else []

/-- The loop over the entries: the ranges in the order they are flushed. -/
def coalesce (baseRevision : Nat) : Memmap → PageRange → List PageRange
  | [], pending => flushPending pending
  | e :: es, pending =>
    match entryStep baseRevision e with
    | .flush => flushPending pending ++ coalesce baseRevision es ⟨0, 0⟩
    | .skip => coalesce baseRevision es pending
    | .range r =>
      if r.base = pending.top ∧ pending.top ≠ 0 then coalesce baseRevision es ⟨pending.base, r.top⟩
      else flushPending pending ++ coalesce baseRevision es r

/-- The pages of a framebuffer. -/
def framebufferRange (e : MemmapEntry) : Option PageRange :=
  if e.type ≠ memmapFramebuffer then none
  else do
    let top ← checkedAdd e.base e.length
    let alignedTop ← alignUp top 0x1000
    return ⟨alignDown e.base 0x1000, alignedTop⟩

/-- `VMM_FLAG_WRITE` -/
def flagWrite : Attr := ⟨true, false, false⟩

/-- `VMM_FLAG_WRITE | VMM_FLAG_FB` -/
def flagWriteFb : Attr := ⟨true, false, true⟩

/-- The calls for a range: in revision 0 it is mapped to itself too. -/
def hhdmCalls (baseRevision directMapOffset : Nat) (flags : Attr) (r : PageRange) : List MapCall :=
  let len := sub64 r.top r.base
  (if baseRevision = 0 then [⟨r.base, r.base, len, flags⟩] else []) ++
    [⟨add64 directMapOffset r.base, r.base, len, flags⟩]

/-- The calls of `build_pagemap` after those for the executable. -/
def directMapCalls (x86 : Bool) (baseRevision directMapOffset : Nat) (memmap : Memmap) : List MapCall :=
  (if baseRevision = 0 then [⟨0x1000, 0x1000, 0x100000000 - 0x1000, flagWrite⟩] else []) ++
  (if baseRevision < 3 then [⟨directMapOffset, 0, 0x100000000, flagWrite⟩] else []) ++
  (coalesce baseRevision memmap ⟨0, 0⟩).flatMap (hhdmCalls baseRevision directMapOffset flagWrite) ++
  (memmap.filterMap framebufferRange).flatMap (hhdmCalls baseRevision directMapOffset flagWriteFb) ++
  (if x86 ∧ 1 ≤ baseRevision then [⟨0, 0, 0x100000000, flagWrite⟩] else [])

/-! ## `map_pages` as an overlay of 64-bit addresses -/

/-- The range of the call has `v`. -/
def Covers64 (c : MapCall) (v : Nat) : Prop := sub64 v c.virt < c.count

instance (c : MapCall) (v : Nat) : Decidable (Covers64 c v) := Nat.decLt _ _

/-- What the call makes of an address it covers. -/
def leaf64 (c : MapCall) (v : Nat) : Leaf := ⟨add64 c.phys (sub64 v c.virt), c.attr⟩

def overlay64 (f : Nat → Option Leaf) (c : MapCall) (v : Nat) : Option Leaf :=
  if Covers64 c v then some (leaf64 c v) else f v

def overlays64 (calls : List MapCall) (f : Nat → Option Leaf) : Nat → Option Leaf := calls.foldl overlay64 f

theorem overlays64_cons (c : MapCall) (cs : List MapCall) (f : Nat → Option Leaf) :
    overlays64 (c :: cs) f = overlays64 cs (overlay64 f c) := by
  unfold overlays64
  rw [List.foldl_cons]

theorem overlays64_singleton (c : MapCall) (f : Nat → Option Leaf) : overlays64 [c] f = overlay64 f c := by
  unfold overlays64
  rw [List.foldl_cons, List.foldl_nil]

theorem overlays64_append (cs ds : List MapCall) (f : Nat → Option Leaf) :
    overlays64 (cs ++ ds) f = overlays64 ds (overlays64 cs f) := by
  unfold overlays64
  rw [List.foldl_append]

/-- Where the calls that cover an address agree, their order does not matter. -/
theorem overlays64_eq {calls : List MapCall} {v : Nat} {x : Leaf}
    (h : ∀ c ∈ calls, Covers64 c v → leaf64 c v = x) (f : Nat → Option Leaf) :
    ((∃ c ∈ calls, Covers64 c v) → overlays64 calls f v = some x) ∧
      ((∀ c ∈ calls, ¬Covers64 c v) → overlays64 calls f v = f v) := by
  induction calls generalizing f with
  | nil => exact ⟨fun ⟨c, hc, _⟩ => absurd hc (List.not_mem_nil), fun _ => rfl⟩
  | cons c cs ih =>
    obtain ⟨hone, hrest⟩ := List.forall_mem_cons.mp h
    obtain ⟨hsome, hnone⟩ := ih hrest (overlay64 f c)
    rw [overlays64_cons]
    constructor
    · intro hex
      by_cases hcs : ∃ c ∈ cs, Covers64 c v
      · exact hsome hcs
      · have hout : ∀ c ∈ cs, ¬Covers64 c v := fun d hd hv => hcs ⟨d, hd, hv⟩
        have hc : Covers64 c v := by
          obtain ⟨d, hd, hv⟩ := hex
          rcases List.mem_cons.mp hd with rfl | hd
          · exact hv
          · exact absurd hv (hout d hd)
        rw [hnone hout, overlay64, if_pos hc, hone hc]
    · intro hall
      obtain ⟨hc, hcs⟩ := List.forall_mem_cons.mp hall
      rw [hnone hcs, overlay64, if_neg hc]

/-! ## The loop -/

/-- The range has the address. -/
def PageRange.Has (r : PageRange) (a : Nat) : Prop := r.base ≤ a ∧ a < r.top

/-- The ranges of the source: whole pages, in 64 bits. -/
structure PageRange.Ok (r : PageRange) : Prop where
  base_dvd : 0x1000 ∣ r.base
  top_dvd : 0x1000 ∣ r.top
  le : r.base ≤ r.top
  lt : r.top < 2 ^ 64

theorem PageRange.ok_zero : (⟨0, 0⟩ : PageRange).Ok :=
  ⟨Nat.dvd_zero _, Nat.dvd_zero _, Nat.le_refl _, by decide⟩

/-- The addresses of the pages that `[base, top)` reaches into. -/
def PageExtent (base top a : Nat) : Prop := alignDown base 0x1000 ≤ a ∧ a < (top + 0xfff) / 0x1000 * 0x1000

instance (base top a : Nat) : Decidable (PageExtent base top a) := inferInstanceAs (Decidable (_ ∧ _))

/-- Unless the range is empty, these are the pages with an address of it. -/
theorem pageExtent_iff {base top : Nat} (h : base < top) (a : Nat) :
    PageExtent base top a ↔ ∃ x, base ≤ x ∧ x < top ∧ x / 0x1000 = a / 0x1000 := by
  unfold PageExtent alignDown
  constructor
  · rintro ⟨h1, h2⟩
    by_cases hlow : a < base
    · exact ⟨base, Nat.le_refl _, h, by omega⟩
    · by_cases hhigh : a < top
      · exact ⟨a, by omega, hhigh, rfl⟩
      · exact ⟨top - 1, by omega, by omega, by omega⟩
  · rintro ⟨x, h1, h2, h3⟩
    constructor <;> omega

/-- The pages of an entry that the loop maps. -/
def InEntry (baseRevision : Nat) (e : MemmapEntry) (a : Nat) : Prop :=
  directMapSkips baseRevision e.type = false ∧ e.base + e.length + 0xfff < 2 ^ 64 ∧
    hhdmBase baseRevision e.base < e.base + e.length ∧
    PageExtent (hhdmBase baseRevision e.base) (e.base + e.length) a

/-- The pages of a framebuffer. -/
def InFramebuffer (e : MemmapEntry) (a : Nat) : Prop :=
  e.type = memmapFramebuffer ∧ e.base + e.length + 0xfff < 2 ^ 64 ∧ PageExtent e.base (e.base + e.length) a

instance (baseRevision : Nat) (e : MemmapEntry) (a : Nat) : Decidable (InEntry baseRevision e a) :=
  inferInstanceAs (Decidable (_ ∧ _))

instance (e : MemmapEntry) (a : Nat) : Decidable (InFramebuffer e a) := inferInstanceAs (Decidable (_ ∧ _))

theorem alignUp_page (x : Nat) :
    alignUp x 0x1000 = if x + 0xfff < 2 ^ 64 then some ((x + 0xfff) / 0x1000 * 0x1000) else none := by
  unfold alignUp checkedAdd
  by_cases h : x + 0xfff < 2 ^ 64
  · rw [if_pos h, if_pos h]
    rfl
  · rw [if_neg h, if_neg h]
    rfl

/-- Rounding a range out to its pages. -/
theorem roundedOk {base top : Nat} (hle : base ≤ top) (hlt : top + 0xfff < 2 ^ 64) :
    (PageRange.mk (alignDown base 0x1000) ((top + 0xfff) / 0x1000 * 0x1000)).Ok := by
  refine ⟨alignDown_dvd _ _, Nat.dvd_mul_left _ _, ?_, ?_⟩
  · show alignDown base 0x1000 ≤ (top + 0xfff) / 0x1000 * 0x1000
    unfold alignDown
    omega
  · show (top + 0xfff) / 0x1000 * 0x1000 < 2 ^ 64
    omega

/-- What `entryStep` finds of an entry. -/
theorem entryStep_spec (baseRevision : Nat) (e : MemmapEntry) :
    (∃ r, entryStep baseRevision e = .range r ∧ r.Ok ∧ ∀ a, r.Has a ↔ InEntry baseRevision e a) ∨
      (entryStep baseRevision e = .flush ∨ entryStep baseRevision e = .skip) ∧ ∀ a, ¬InEntry baseRevision e a := by
  unfold entryStep
  by_cases hskip : directMapSkips baseRevision e.type = true
  · rw [if_pos hskip]
    exact .inr ⟨.inl rfl, fun a h => by rw [h.1] at hskip; cases hskip⟩
  · have hkept := Bool.eq_false_iff.mpr hskip
    rw [if_neg hskip]
    by_cases hfits : e.base + e.length < 2 ^ 64
    · rw [checkedAdd_eq_some hfits]
      simp only [alignUp_page]
      by_cases hempty : e.base + e.length ≤ hhdmBase baseRevision e.base
      · rw [if_pos hempty]
        exact .inr ⟨.inl rfl, fun a h => absurd h.2.2.1 (by omega)⟩
      · rw [if_neg hempty]
        by_cases hround : e.base + e.length + 0xfff < 2 ^ 64
        · rw [if_pos hround]
          exact .inl ⟨_, rfl, roundedOk (by omega) hround,
            fun a => ⟨fun h => ⟨hkept, hround, by omega, h⟩, fun h => h.2.2.2⟩⟩
        · rw [if_neg hround]
          exact .inr ⟨.inr rfl, fun a h => absurd h.2.1 hround⟩
    · rw [checkedAdd_eq_none_iff.mpr (by omega)]
      exact .inr ⟨.inl rfl, fun a h => absurd h.2.1 (by omega)⟩

theorem framebufferRange_spec (e : MemmapEntry) :
    (∃ r, framebufferRange e = some r ∧ r.Ok ∧
      (e.type = memmapFramebuffer ∧ r.base ≤ e.base ∧ e.base + e.length ≤ r.top) ∧
      ∀ a, r.Has a ↔ InFramebuffer e a) ∨
      framebufferRange e = none ∧ ∀ a, ¬InFramebuffer e a := by
  unfold framebufferRange
  by_cases htype : e.type = memmapFramebuffer
  · rw [if_neg (by simpa using htype)]
    by_cases hfits : e.base + e.length < 2 ^ 64
    · rw [checkedAdd_eq_some hfits, Option.bind_eq_bind, Option.bind_some, alignUp_page]
      by_cases hround : e.base + e.length + 0xfff < 2 ^ 64
      · rw [if_pos hround]
        refine .inl ⟨_, rfl, roundedOk (by omega) hround, ⟨htype, alignDown_le _ _, ?_⟩,
          fun a => ⟨fun h => ⟨htype, hround, h⟩, fun h => h.2.2⟩⟩
        show e.base + e.length ≤ (e.base + e.length + 0xfff) / 0x1000 * 0x1000
        omega
      · rw [if_neg hround]
        exact .inr ⟨rfl, fun a h => absurd h.2.1 hround⟩
    · rw [checkedAdd_eq_none_iff.mpr (by omega)]
      exact .inr ⟨rfl, fun a h => absurd h.2.1 (by omega)⟩
  · rw [if_pos htype]
    exact .inr ⟨rfl, fun a h => htype h.1⟩

theorem mem_flushPending {pending r : PageRange} :
    r ∈ flushPending pending ↔ r = pending ∧ pending.base < pending.top := by
  unfold flushPending
  by_cases h : pending.base < pending.top
  · simp [h]
  · simp [h]

/-- A flush loses no address. -/
theorem flushPending_has {pending : PageRange} {a : Nat} :
    (∃ r ∈ flushPending pending, r.Has a) ↔ pending.Has a := by
  constructor
  · rintro ⟨r, hr, ha⟩
    obtain ⟨rfl, -⟩ := mem_flushPending.mp hr
    exact ha
  · intro ha
    obtain ⟨h1, h2⟩ := ha
    exact ⟨pending, mem_flushPending.mpr ⟨rfl, by omega⟩, h1, h2⟩

/-- **The ranges flushed** have the pages of the entries, and what was pending. -/
theorem coalesce_spec (baseRevision : Nat) (es : Memmap) {pending : PageRange} (hok : pending.Ok) :
    (∀ r ∈ coalesce baseRevision es pending, r.Ok) ∧
      ∀ a, (∃ r ∈ coalesce baseRevision es pending, r.Has a) ↔
        pending.Has a ∨ ∃ e ∈ es, InEntry baseRevision e a := by
  induction es generalizing pending with
  | nil =>
    constructor
    · intro r hr
      obtain ⟨rfl, -⟩ := mem_flushPending.mp hr
      exact hok
    · intro a
      simp only [coalesce, flushPending_has, List.not_mem_nil, false_and, exists_false, or_false]
  | cons e es ih =>
    -- a range that takes the place of the pending one, with that flushed before it
    have hflush : ∀ r' : PageRange, r'.Ok → (∀ a, r'.Has a ↔ InEntry baseRevision e a) →
        (∀ r ∈ flushPending pending ++ coalesce baseRevision es r', r.Ok) ∧
          ∀ a, (∃ r ∈ flushPending pending ++ coalesce baseRevision es r', r.Has a) ↔
            pending.Has a ∨ ∃ e' ∈ e :: es, InEntry baseRevision e' a := by
      intro r' hok' hhas
      obtain ⟨hall, hiff⟩ := ih hok'
      constructor
      · intro r hr
        rcases List.mem_append.mp hr with hr | hr
        · obtain ⟨rfl, -⟩ := mem_flushPending.mp hr
          exact hok
        · exact hall r hr
      · intro a
        simp only [List.mem_append, or_and_right, exists_or, flushPending_has, hiff, hhas,
          List.mem_cons, exists_eq_left]
    rcases entryStep_spec baseRevision e with ⟨r, hstep, hrok, hhas⟩ | ⟨hstep, hnone⟩
    · by_cases hmeet : r.base = pending.top ∧ pending.top ≠ 0
      · obtain ⟨hall, hiff⟩ := ih (⟨hok.base_dvd, hrok.top_dvd,
          Nat.le_trans (hmeet.1 ▸ hok.le) hrok.le, hrok.lt⟩ : (PageRange.mk pending.base r.top).Ok)
        simp only [coalesce, hstep, if_pos hmeet]
        refine ⟨hall, fun a => (hiff a).trans ?_⟩
        have hjoin : (PageRange.mk pending.base r.top).Has a ↔ pending.Has a ∨ r.Has a := by
          have := hok.le
          have := hrok.le
          show pending.base ≤ a ∧ a < r.top ↔ pending.Has a ∨ r.Has a
          unfold PageRange.Has
          omega
        rw [hjoin, hhas, List.exists_mem_cons_iff, or_assoc]
      · simp only [coalesce, hstep, if_neg hmeet]
        exact hflush r hrok hhas
    · have hempty : ∀ a, (⟨0, 0⟩ : PageRange).Has a ↔ InEntry baseRevision e a :=
        fun a => ⟨fun h => absurd h.2 (Nat.not_lt_zero a), fun h => absurd h (hnone a)⟩
      rcases hstep with hstep | hstep
      · simp only [coalesce, hstep]
        exact hflush _ PageRange.ok_zero hempty
      · simp only [coalesce, hstep]
        obtain ⟨hall, hiff⟩ := ih hok
        refine ⟨hall, fun a => (hiff a).trans ?_⟩
        rw [List.exists_mem_cons_iff, or_iff_right (hnone a)]

/-- Only ranges with an address are flushed. -/
theorem coalesce_lt (baseRevision : Nat) (es : Memmap) (pending : PageRange) :
    ∀ r ∈ coalesce baseRevision es pending, r.base < r.top := by
  induction es generalizing pending with
  | nil =>
    intro r hr
    obtain ⟨rfl, hlt⟩ := mem_flushPending.mp hr
    exact hlt
  | cons e es ih =>
    have hflush : ∀ r' : PageRange, ∀ r ∈ flushPending pending ++ coalesce baseRevision es r', r.base < r.top := by
      intro r' r hr
      rcases List.mem_append.mp hr with hr | hr
      · obtain ⟨rfl, hlt⟩ := mem_flushPending.mp hr
        exact hlt
      · exact ih r' r hr
    cases hstep : entryStep baseRevision e with
    | flush =>
      simp only [coalesce, hstep]
      exact hflush _
    | skip =>
      simp only [coalesce, hstep]
      exact ih pending
    | range r' =>
      simp only [coalesce, hstep]
      by_cases hmeet : r'.base = pending.top ∧ pending.top ≠ 0
      · rw [if_pos hmeet]
        exact ih _
      · rw [if_neg hmeet]
        exact hflush r'

/-! ## The direct map -/

section
variable {baseRevision offset a : Nat} {flags : Attr}

instance (r : PageRange) (a : Nat) : Decidable (r.Has a) := inferInstanceAs (Decidable (_ ∧ _))

/-- The call that maps a range at an offset covers the addresses of the range, at that offset. -/
theorem covers64_iff {r : PageRange} (hok : r.Ok) (hwindow : offset + a < 2 ^ 64) :
    Covers64 ⟨add64 offset r.base, r.base, sub64 r.top r.base, flags⟩ (offset + a) ↔ r.Has a := by
  have hle := hok.le
  have hlt := hok.lt
  unfold Covers64 PageRange.Has sub64 add64
  dsimp only
  omega

theorem leaf64_eq {r : PageRange} (hok : r.Ok) (hwindow : offset + a < 2 ^ 64) (ha : r.Has a) :
    leaf64 ⟨add64 offset r.base, r.base, sub64 r.top r.base, flags⟩ (offset + a) = ⟨a, flags⟩ := by
  obtain ⟨h1, h2⟩ := ha
  have hlt := hok.lt
  have hphys : add64 r.base (sub64 (offset + a) (add64 offset r.base)) = a := by
    unfold sub64 add64
    omega
  unfold leaf64
  rw [hphys]

/-- The same call with no offset. -/
theorem covers64_self_iff {r : PageRange} (hok : r.Ok) {v : Nat} (hv : v < 2 ^ 64) :
    Covers64 ⟨r.base, r.base, sub64 r.top r.base, flags⟩ v ↔ r.Has v := by
  have hle := hok.le
  have hlt := hok.lt
  unfold Covers64 PageRange.Has sub64
  dsimp only
  omega

theorem mem_hhdmCalls {r : PageRange} {c : MapCall} :
    c ∈ hhdmCalls baseRevision offset flags r ↔
      baseRevision = 0 ∧ c = ⟨r.base, r.base, sub64 r.top r.base, flags⟩ ∨
        c = ⟨add64 offset r.base, r.base, sub64 r.top r.base, flags⟩ := by
  unfold hhdmCalls
  by_cases h : baseRevision = 0
  · simp [h]
  · simp [h]

/-- **The calls for a list of ranges**, where none of them reaches the direct map itself. -/
theorem overlays64_hhdm {rs : List PageRange} (hok : ∀ r ∈ rs, r.Ok) (hwindow : offset + a < 2 ^ 64)
    (hself : baseRevision = 0 → ∀ r ∈ rs, ¬r.Has (offset + a)) (f : Nat → Option Leaf) :
    overlays64 (rs.flatMap (hhdmCalls baseRevision offset flags)) f (offset + a) =
      if ∃ r ∈ rs, r.Has a then some ⟨a, flags⟩ else f (offset + a) := by
  have hcover : ∀ c ∈ rs.flatMap (hhdmCalls baseRevision offset flags), Covers64 c (offset + a) →
      (∃ r ∈ rs, r.Has a) ∧ leaf64 c (offset + a) = ⟨a, flags⟩ := by
    intro c hc hv
    obtain ⟨r, hr, hc⟩ := List.mem_flatMap.mp hc
    rcases mem_hhdmCalls.mp hc with ⟨hrev, rfl⟩ | rfl
    · exact absurd ((covers64_self_iff (hok r hr) hwindow).mp hv) (hself hrev r hr)
    · have ha := (covers64_iff (hok r hr) hwindow).mp hv
      exact ⟨⟨r, hr, ha⟩, leaf64_eq (hok r hr) hwindow ha⟩
  obtain ⟨hsome, hnone⟩ := overlays64_eq (fun c hc hv => (hcover c hc hv).2) f
  by_cases hex : ∃ r ∈ rs, r.Has a
  · rw [if_pos hex]
    obtain ⟨r, hr, ha⟩ := hex
    exact hsome ⟨_, List.mem_flatMap.mpr ⟨r, hr, mem_hhdmCalls.mpr (.inr rfl)⟩,
      (covers64_iff (hok r hr) hwindow).mpr ha⟩
  · rw [if_neg hex]
    exact hnone fun c hc hv => hex (hcover c hc hv).1

/-- A call for a range that the address is not in changes nothing there. -/
theorem overlays64_away {calls : List MapCall} {v : Nat} (h : ∀ c ∈ calls, ¬Covers64 c v)
    (f : Nat → Option Leaf) : overlays64 calls f v = f v :=
  (overlays64_eq (x := ⟨0, flagWrite⟩) (fun c hc hv => absurd hv (h c hc)) f).2 h

end

/-- The first 4 GiB, as a range. -/
def lowRange : PageRange := ⟨0, 0x100000000⟩

theorem lowRange_ok : lowRange.Ok := ⟨by decide, by decide, by decide, by decide⟩

/-- The ranges of the second pass have the pages of the framebuffers. -/
theorem framebuffers_spec (memmap : Memmap) :
    (∀ r ∈ memmap.filterMap framebufferRange, r.Ok) ∧
      ∀ a, (∃ r ∈ memmap.filterMap framebufferRange, r.Has a) ↔ ∃ e ∈ memmap, InFramebuffer e a := by
  constructor
  · intro r hr
    obtain ⟨e, -, he⟩ := List.mem_filterMap.mp hr
    rcases framebufferRange_spec e with ⟨r', hr', hok, -, -⟩ | ⟨hnone, -⟩
    · cases hr'.symm.trans he
      exact hok
    · cases hnone.symm.trans he
  · intro a
    constructor
    · rintro ⟨r, hr, ha⟩
      obtain ⟨e, hmem, he⟩ := List.mem_filterMap.mp hr
      rcases framebufferRange_spec e with ⟨r', hr', -, -, hhas⟩ | ⟨hnone, -⟩
      · cases hr'.symm.trans he
        exact ⟨e, hmem, (hhas a).mp ha⟩
      · cases hnone.symm.trans he
    · rintro ⟨e, hmem, ha⟩
      rcases framebufferRange_spec e with ⟨r, hr, -, -, hhas⟩ | ⟨-, hnone⟩
      · exact ⟨r, List.mem_filterMap.mpr ⟨e, hmem, hr⟩, (hhas a).mpr ha⟩
      · exact absurd ha (hnone a)

/-- The physical addresses that are mapped at the offset of the direct map. -/
def DirectMapped (baseRevision : Nat) (memmap : Memmap) (a : Nat) : Prop :=
  baseRevision < 3 ∧ a < 0x100000000 ∨ (∃ e ∈ memmap, InEntry baseRevision e a) ∨
    ∃ e ∈ memmap, InFramebuffer e a

instance (baseRevision : Nat) (memmap : Memmap) (a : Nat) : Decidable (DirectMapped baseRevision memmap a) :=
  inferInstanceAs (Decidable (_ ∨ _))

/-- The calls for what is identity mapped besides are below 4 GiB, and the direct map is not. -/
theorem not_covers64_low {c : MapCall} {v : Nat} (hvirt : c.virt < 0x100000000)
    (hcount : c.virt + c.count ≤ 0x100000000) (h1 : 0x100000000 ≤ v) (h2 : v < 2 ^ 64) : ¬Covers64 c v := by
  unfold Covers64 sub64
  omega

theorem directMapCalls_overlay (x86 : Bool) {baseRevision offset a : Nat} {memmap : Memmap}
    (hoffset : 0x100000000 ≤ offset) (hwindow : offset + a < 2 ^ 64)
    (hself : baseRevision = 0 → ¬DirectMapped 0 memmap (offset + a)) (f : Nat → Option Leaf) :
    overlays64 (directMapCalls x86 baseRevision offset memmap) f (offset + a) =
      if ∃ e ∈ memmap, InFramebuffer e a then some ⟨a, flagWriteFb⟩
      else if DirectMapped baseRevision memmap a then some ⟨a, flagWrite⟩
      else f (offset + a) := by
  obtain ⟨hfbok, hfb⟩ := framebuffers_spec memmap
  obtain ⟨hok, hentries⟩ := coalesce_spec baseRevision memmap PageRange.ok_zero
  have hmain : ∀ v, (∃ r ∈ coalesce baseRevision memmap ⟨0, 0⟩, r.Has v) ↔ ∃ e ∈ memmap, InEntry baseRevision e v :=
    fun v => (hentries v).trans (or_iff_right fun h => absurd h.2 (Nat.not_lt_zero v))
  have hselfMain : baseRevision = 0 → ∀ r ∈ coalesce baseRevision memmap ⟨0, 0⟩, ¬r.Has (offset + a) := by
    intro hrev r hr hv
    have hin := (hmain _).mp ⟨r, hr, hv⟩
    rw [hrev] at hin
    exact hself hrev (.inr (.inl hin))
  have hselfFb : baseRevision = 0 → ∀ r ∈ memmap.filterMap framebufferRange, ¬r.Has (offset + a) :=
    fun hrev r hr hv => hself hrev (.inr (.inr ((hfb _).mp ⟨r, hr, hv⟩)))
  -- the call for the first 4 GiB is the one for `lowRange`
  have hlow : ∀ g, overlays64 (if baseRevision < 3 then [⟨offset, 0, 0x100000000, flagWrite⟩] else []) g (offset + a) =
      if baseRevision < 3 ∧ a < 0x100000000 then some ⟨a, flagWrite⟩ else g (offset + a) := by
    intro g
    have hcall : (⟨offset, 0, 0x100000000, flagWrite⟩ : MapCall) =
        ⟨add64 offset lowRange.base, lowRange.base, sub64 lowRange.top lowRange.base, flagWrite⟩ := by
      have hzero : add64 offset lowRange.base = offset := add64_eq (by show offset + 0 < 2 ^ 64; omega)
      rw [hzero]
      rfl
    have hhas : lowRange.Has a ↔ a < 0x100000000 := ⟨And.right, fun h => ⟨Nat.zero_le a, h⟩⟩
    by_cases hrev : baseRevision < 3
    · rw [if_pos hrev, hcall, overlays64_singleton, overlay64]
      by_cases ha : a < 0x100000000
      · rw [if_pos ((covers64_iff lowRange_ok hwindow).mpr (hhas.mpr ha)),
          leaf64_eq lowRange_ok hwindow (hhas.mpr ha), if_pos ⟨hrev, ha⟩]
      · rw [if_neg (fun h => ha (hhas.mp ((covers64_iff lowRange_ok hwindow).mp h))), if_neg fun h => ha h.2]
    · rw [if_neg hrev, if_neg fun h => hrev h.1]
      rfl
  have hidentity : ∀ c ∈ (if baseRevision = 0 then [⟨0x1000, 0x1000, 0x100000000 - 0x1000, flagWrite⟩] else [] :
      List MapCall), ¬Covers64 c (offset + a) := by
    intro c hc
    by_cases hrev : baseRevision = 0
    · rw [if_pos hrev, List.mem_singleton] at hc
      subst hc
      exact not_covers64_low (by decide) (by decide) (by omega) hwindow
    · rw [if_neg hrev] at hc
      cases hc
  have hswitch : ∀ c ∈ (if x86 ∧ 1 ≤ baseRevision then [⟨0, 0, 0x100000000, flagWrite⟩] else [] : List MapCall),
      ¬Covers64 c (offset + a) := by
    intro c hc
    by_cases hrev : x86 ∧ 1 ≤ baseRevision
    · rw [if_pos hrev, List.mem_singleton] at hc
      subst hc
      exact not_covers64_low (by decide) (by decide) (by omega) hwindow
    · rw [if_neg hrev] at hc
      cases hc
  unfold directMapCalls
  rw [overlays64_append, overlays64_append, overlays64_append, overlays64_append, overlays64_away hswitch,
    overlays64_hhdm hfbok hwindow hselfFb, overlays64_hhdm hok hwindow hselfMain, hlow, overlays64_away hidentity]
  simp only [hfb, hmain]
  by_cases h1 : ∃ e ∈ memmap, InFramebuffer e a
  · rw [if_pos h1, if_pos h1]
  · rw [if_neg h1, if_neg h1]
    by_cases h2 : ∃ e ∈ memmap, InEntry baseRevision e a
    · have hmapped : DirectMapped baseRevision memmap a := .inr (.inl h2)
      rw [if_pos h2, if_pos hmapped]
    · rw [if_neg h2]
      by_cases h3 : baseRevision < 3 ∧ a < 0x100000000
      · have hmapped : DirectMapped baseRevision memmap a := .inl h3
        rw [if_pos h3, if_pos hmapped]
      · have hmapped : ¬DirectMapped baseRevision memmap a := by
          rintro (h | h | h) <;> contradiction
        rw [if_neg h3, if_neg hmapped]

/-- All the calls of `build_pagemap`. -/
def pagemapCalls (x86 nx : Bool) (ranges : List MemRange) (physicalBase virtualBase baseRevision offset : Nat)
    (memmap : Memmap) : List MapCall :=
  ranges.map (rangeCall nx physicalBase virtualBase) ++ directMapCalls x86 baseRevision offset memmap

/-- **What the direct map holds**: the pages of the entries that the revision admits, those of the
framebuffers and below revision 3 the first 4 GiB, and nothing else; of them those of the framebuffers
have their memory type.  In revision 0 a page may be in the way that is mapped to itself. -/
theorem buildPagemap_directMap (x86 nx randomise : Bool) (mode : PagingMode) (rand : Nat) (ranges : List MemRange)
    (physicalBase virtualBase baseRevision : Nat) (memmap : Memmap) (f : Nat → Option Leaf) :
    let offset := setPagingMode mode randomise rand
    let calls := pagemapCalls x86 nx ranges physicalBase virtualBase baseRevision offset memmap
    (∀ (port : Port) (s s' : Memory) (pagemap : port.Pagemap),
      buildPagemap port nx ranges physicalBase virtualBase (directMapCalls x86 baseRevision offset memmap) s =
        .ok (pagemap, s') →
      Vmm.buildPagemap port.newPagemap port.mapPages calls s = .ok (pagemap, s')) ∧
    ∀ a, offset + a < 2 ^ 64 → (baseRevision = 0 → ¬DirectMapped 0 memmap (offset + a)) →
      overlays64 calls f (offset + a) =
        if ∃ e ∈ memmap, InFramebuffer e a then some ⟨a, flagWriteFb⟩
        else if DirectMapped baseRevision memmap a then some ⟨a, flagWrite⟩
        else overlays64 (ranges.map (rangeCall nx physicalBase virtualBase)) f (offset + a) := by
  intro offset calls
  refine ⟨fun port s s' pagemap hrun => (buildPagemap_ok hrun).2, fun a hwindow hself => ?_⟩
  have hge : 2 ^ 63 ≤ offset := (setPagingMode_ge mode randomise rand).1
  have hlow : 0x100000000 ≤ offset := Nat.le_trans (by decide) hge
  have happend : overlays64 calls f = overlays64 (directMapCalls x86 baseRevision offset memmap)
      (overlays64 (ranges.map (rangeCall nx physicalBase virtualBase)) f) := overlays64_append _ _ f
  rw [happend]
  exact directMapCalls_overlay x86 hlow hwindow hself _

/-- Usable memory up to a framebuffer, which begins in the middle of a page. -/
def memmapWithFramebuffer : Memmap :=
  [⟨0x100000, 0xfcf00000, memmapUsable⟩, ⟨0xfd000800, 0x300000, memmapFramebuffer⟩]

theorem buildPagemap_directMap_framebuffer :
    overlays64 (pagemapCalls true true [] 0 0 3 (setPagingMode .x86Lvl4 false 0) memmapWithFramebuffer)
      (fun _ => none) (setPagingMode .x86Lvl4 false 0 + 0xfd000000) = some ⟨0xfd000000, flagWriteFb⟩ := by
  have hspec := buildPagemap_directMap true true false .x86Lvl4 0 [] 0 0 3 memmapWithFramebuffer fun _ => none
  have hin : ∃ e ∈ memmapWithFramebuffer, InFramebuffer e 0xfd000000 := by decide
  have hpage := hspec.2 0xfd000000 (by decide) (fun h => absurd h (by decide))
  rw [if_pos hin] at hpage
  exact hpage

/-- Where the direct map is not what the entries say: above its window, where the address space starts
again and the first 4 GiB are mapped to themselves; for an entry without a byte, of which only a
framebuffer's page is mapped; and in revision 0 under an entry that is mapped to itself. -/
theorem buildPagemap_directMap_exceptions :
    overlays64 (pagemapCalls true true [] 0 0 3 (setPagingMode .x86Lvl4 false 0)
        [⟨0x800000000000, 0x1000, memmapUsable⟩]) (fun _ => none)
        (add64 (setPagingMode .x86Lvl4 false 0) 0x800000000000) = some ⟨0, flagWrite⟩ ∧
      overlays64 (pagemapCalls true true [] 0 0 3 (setPagingMode .x86Lvl4 false 0)
        [⟨0x100000800, 0, memmapUsable⟩, ⟨0x200000800, 0, memmapFramebuffer⟩]) (fun _ => none)
        (setPagingMode .x86Lvl4 false 0 + 0x100000000) = none ∧
      overlays64 (pagemapCalls true true [] 0 0 3 (setPagingMode .x86Lvl4 false 0)
        [⟨0x100000800, 0, memmapUsable⟩, ⟨0x200000800, 0, memmapFramebuffer⟩]) (fun _ => none)
        (setPagingMode .x86Lvl4 false 0 + 0x200000000) = some ⟨0x200000000, flagWriteFb⟩ ∧
      overlays64 (pagemapCalls true true [] 0 0 0 (setPagingMode .x86Lvl4 false 0)
        [⟨0x100000000, 0x1000, memmapUsable⟩, ⟨0xffff800100000000, 0x1000, memmapReserved⟩]) (fun _ => none)
        (setPagingMode .x86Lvl4 false 0 + 0x100000000) = some ⟨0xffff800100000000, flagWrite⟩ := by
  decide

end Limine.Protos
