import Limine.Efi.ExitBootServices
import Limine.Pmm.Room

/-!
# Giving EFI memory its final types

`pmm_reclaim_uefi_mem` notes the EFI reclaimable entries and then carves from the map what each
descriptor of the firmware's map has in each of them.  The carves are ranges of the noted entries
apart from each other, so each finds the part of its entry that no carve before it has touched
(`carveAll_ensures`).
-/

namespace Limine.Pmm

open Limine.Lib MemmapEntry
open Limine.Efi (EfiMemoryDescriptor efiConventionalMemory checkedMul)

def efiLoaderCode : Nat := 1
def efiLoaderData : Nat := 2
def efiBootServicesCode : Nat := 3
def efiBootServicesData : Nat := 4
def efiAcpiReclaimMemory : Nat := 9
def efiAcpiMemoryNvs : Nat := 10

/-- `our_type` for the type of a descriptor. -/
def ourType (raw : Bool) (type : Nat) : Nat :=
  if type = efiLoaderCode ∨ type = efiLoaderData ∨ type = efiBootServicesCode
      ∨ type = efiBootServicesData then
    if raw then memmapUsable else memmapBootloaderReclaimable
  else if type = efiConventionalMemory then memmapUsable
  else if type = efiAcpiReclaimMemory then memmapAcpiReclaimable
  else if type = efiAcpiMemoryNvs then memmapAcpiNvs
  else memmapReserved

/-- The clipping at the top of an entry `[base, top)`, and the sanity check. -/
def clipTop (base top efiBase efiSize : Nat) : Option (Nat × Nat) :=
  (checkedAdd efiBase efiSize).bind fun efiTop =>
    if top < efiTop ∧ efiSize ≤ efiTop - top then none
    else
      let size := if top < efiTop then efiSize - (efiTop - top) else efiSize
      let efiTop := if top < efiTop then top else efiTop
      if efiBase ≥ base ∧ efiBase < top ∧ efiTop > base ∧ efiTop ≤ top then some (efiBase, size)
      else none

/-- `efi_base` and `efi_size` clipped to the entry `r`; `none` is a `continue`. -/
def clipToEntry (r : MemmapEntry) (entry : EfiMemoryDescriptor) : Option (Nat × Nat) :=
  (checkedAdd r.base r.length).bind fun top =>
    (checkedMul entry.numberOfPages 4096).bind fun efiSize =>
      if entry.physicalStart < r.base then
        if efiSize ≤ r.base - entry.physicalStart then none
        else clipTop r.base top r.base (efiSize - (r.base - entry.physicalStart))
      else clipTop r.base top entry.physicalStart efiSize

/-- One turn of the inner loop. -/
def reclaimEntry (cfg : Config) (raw : Bool) (r : MemmapEntry) (m : Memmap)
    (entry : EfiMemoryDescriptor) : Exec Memmap :=
  match clipToEntry r entry with
  | none => .ok m
  | some (efiBase, efiSize) => do
    let (m, _) ← memmapAllocRangeIn cfg m efiBase efiSize (ourType raw entry.type) 0 true false false
    return m

def pmmReclaimUefiMem (cfg : Config) (efiMmap : List EfiMemoryDescriptor) (m : Memmap) (raw : Bool) :
    Exec Memmap :=
  let recl := m.filter fun e => e.type == memmapEfiReclaimable
  if 1024 < recl.length then .error (.panic "pmm: Too many EFI reclaimable entries")
  else do
    let m ← recl.foldlM (fun m r => efiMmap.foldlM (reclaimEntry cfg raw r) m) m
    pmmSanitiseEntries cfg.maxEntries cfg.keepFirstPage m false

/-! ## Carving ranges apart from each other -/

/-- The carve of one range, given as the entry it becomes. -/
def carveJob (cfg : Config) (m : Memmap) (job : MemmapEntry) : Exec Memmap := do
  let (m, _) ← memmapAllocRangeIn cfg m job.base job.length job.type 0 true false false
  return m

/-- The range lies in one EFI reclaimable entry. -/
def InEfiEntry (m : Memmap) (job : MemmapEntry) : Prop :=
  ∃ e ∈ m, e.type = memmapEfiReclaimable ∧ e.base ≤ job.base ∧
    job.base + job.length ≤ e.base + e.length

/-- What carving `jobs` leaves. -/
structure CarvedAll (keepFirstPage : Bool) (jobs : List MemmapEntry) (m m' : Memmap) : Prop where
  sanitised : Sanitised keepFirstPage false m'
  disjoint : AllDisjoint m'
  outside : ∀ a, (∀ job ∈ jobs, a ∉ job.span) → typesAt m' a = typesAt m a
  inside : ∀ job ∈ jobs, ∀ a ∈ job.span,
    typesAt m' a = {t | t = job.type ∧ InReach keepFirstPage job.type a}

theorem carveAll_ensures (cfg : Config) (jobs : List MemmapEntry) :
    ∀ m, Sanitised cfg.keepFirstPage false m → AllDisjoint m → AllDisjoint jobs →
      (∀ job ∈ jobs, 0 < job.length → InEfiEntry m job) →
      (jobs.foldlM (carveJob cfg) m).Ensures (cfg.maxEntries < m.length + 2 * jobs.length)
        (CarvedAll cfg.keepFirstPage jobs m) := by
  induction jobs with
  | nil =>
    intro m hm hd _ _
    exact ⟨hm, hd, fun _ _ => rfl, by simp⟩
  | cons job jobs ih =>
    intro m hm hd hap hin
    obtain ⟨hap₁, hap₂⟩ := List.pairwise_cons.mp hap
    rw [List.foldlM_cons]
    rcases Nat.eq_zero_or_pos job.length with hzero | hpos
    · -- nothing is carved
      have hrun : carveJob cfg m job = .ok m := by
        unfold carveJob memmapAllocRangeIn
        dsimp only
        rw [if_pos hzero]
        rfl
      have hempty : ∀ a, a ∉ job.span := by
        intro a ha
        have := ha.1
        have := ha.2
        omega
      rw [hrun]
      refine (ih m hm hd hap₂ fun x hx => hin x (List.mem_cons_of_mem _ hx)).imp (fun h => ?_)
        fun m' h => ⟨h.sanitised, h.disjoint, ?_, ?_⟩
      · rw [List.length_cons]
        omega
      · exact fun a ha => h.outside a fun x hx => ha x (List.mem_cons_of_mem _ hx)
      · intro x hx a ha
        rcases List.mem_cons.mp hx with rfl | hx
        · exact absurd ha (hempty a)
        · exact h.inside x hx a ha
    · obtain ⟨e, he, hte, h₁, h₂⟩ := hin job List.mem_cons_self hpos
      have hno : e.base + e.length < 2 ^ 64 := hm.noneOverflows e he
      have hov : job.base + job.length < 2 ^ 64 := by omega
      have hholds : holdsRange 0 job.base (job.base + job.length) e = true :=
        (holdsRange_iff (hm.noneOverflows e he)).mpr ⟨Or.inl rfl, h₁, by omega, h₂⟩
      have hsplits := splits_disjoint hd (show job.base < job.base + job.length by omega)
      unfold carveJob
      rw [bind_assoc]
      refine Exec.Ensures.bind ((memmapAllocRangeIn_room cfg hm job.type hpos hov
        (Or.inr ⟨e, he, hholds⟩)).imp (fun h => ?_) fun _ h => h) fun r hr => ?_
      · rw [List.length_cons]
        omega
      obtain ⟨m₁, ok⟩ := r
      obtain ⟨-, hc⟩ := hr
      dsimp only at hc ⊢
      rw [pure_bind]
      -- the other ranges still lie in a part of their entries
      have hrest : ∀ x ∈ jobs, 0 < x.length → InEfiEntry m₁ x := by
        intro x hx hxpos
        obtain ⟨r, hr, htr, hr₁, hr₂⟩ := hin x (List.mem_cons_of_mem _ hx) hxpos
        have hxap := span_disjoint_iff.mp (hap₁ x hx)
        have hap : x.base + x.length ≤ job.base ∨ job.base + job.length ≤ x.base := by omega
        obtain ⟨y, hy, hty, hy₁, hy₂⟩ := exists_piece (hm.noneOverflows r hr)
          (show x.base < x.base + x.length by omega) hr₁ hr₂ hap (Nat.le_add_right _ _)
        refine ⟨y, (hc.stays y ?_).mpr (mem_carved.mpr (Or.inl ⟨r, hr, hy⟩)), hty.trans htr, hy₁, hy₂⟩
        rw [hty, htr]
        rfl
      refine (ih m₁ hc.sanitised (hc.disjoint hd) hap₂ hrest).imp (fun h => ?_)
        fun m' h => ⟨h.sanitised, h.disjoint, ?_, ?_⟩
      · have := hc.length_le
        rw [List.length_cons]
        omega
      · intro a ha
        rw [h.outside a fun x hx => ha x (List.mem_cons_of_mem _ hx)]
        exact hc.types_outside hm (ha job List.mem_cons_self)
      · intro x hx a ha
        rcases List.mem_cons.mp hx with rfl | hx
        · rw [h.outside a fun y hy => Set.disjoint_left.mp (hap₁ y hy) ha]
          exact hc.types_inside ha
        · exact h.inside x hx a ha

/-! ## The carves of `pmm_reclaim_uefi_mem` -/

/-- The descriptor describes address `a`. -/
def Describes (d : EfiMemoryDescriptor) (a : Nat) : Prop :=
  d.physicalStart ≤ a ∧ a < d.physicalStart + d.numberOfPages * 4096

/-- The descriptor ends inside 64 bits. -/
def DescriptorFits (d : EfiMemoryDescriptor) : Prop :=
  d.physicalStart + d.numberOfPages * 4096 < 2 ^ 64

instance (d : EfiMemoryDescriptor) : Decidable (DescriptorFits d) :=
  inferInstanceAs (Decidable (_ < _))

theorem efi_checkedMul_eq {a b : Nat} : checkedMul a b = if a * b < 2 ^ 64 then some (a * b) else none :=
  rfl

theorem clipTop_eq {base top efiBase efiSize : Nat} (hb : base ≤ efiBase) :
    clipTop base top efiBase efiSize =
      if efiBase + efiSize < 2 ^ 64 ∧ efiBase < top ∧ base < efiBase + efiSize then
        some (efiBase, min top (efiBase + efiSize) - efiBase)
      else none := by
  unfold clipTop
  by_cases hov : efiBase + efiSize < 2 ^ 64
  · rw [checkedAdd_eq_some hov, Option.bind_some]
    by_cases hcut : top < efiBase + efiSize
    · simp only [hcut, if_true, true_and]
      by_cases hout : top ≤ efiBase
      · rw [if_pos (by omega), if_neg (by omega)]
      · rw [if_neg (by omega), if_pos (by omega), if_pos (by omega)]
        congr 2
        omega
    · simp only [hcut, if_false, false_and]
      by_cases hin : efiBase < top ∧ base < efiBase + efiSize
      · rw [if_pos (by omega), if_pos (by omega)]
        congr 2
        omega
      · rw [if_neg (by omega), if_neg (by omega)]
  · rw [checkedAdd_eq_none_iff.mpr (by omega), Option.bind_none, if_neg (by omega)]

/-- The clipping with the bounds as they are. -/
theorem clipToEntry_eq (r : MemmapEntry) (d : EfiMemoryDescriptor) :
    clipToEntry r d =
      if r.NoOverflow ∧ DescriptorFits d ∧ r.base < d.physicalStart + d.numberOfPages * 4096 ∧
          max r.base d.physicalStart < r.base + r.length then
        some (max r.base d.physicalStart, min (r.base + r.length)
          (d.physicalStart + d.numberOfPages * 4096) - max r.base d.physicalStart)
      else none := by
  unfold clipToEntry DescriptorFits NoOverflow
  rw [efi_checkedMul_eq]
  by_cases hr : r.base + r.length < 2 ^ 64
  · rw [checkedAdd_eq_some hr, Option.bind_some]
    by_cases hsize : d.numberOfPages * 4096 < 2 ^ 64
    · rw [if_pos hsize, Option.bind_some]
      by_cases hbelow : d.physicalStart < r.base
      · rw [if_pos hbelow, Nat.max_eq_left (by omega)]
        by_cases hskip : d.numberOfPages * 4096 ≤ r.base - d.physicalStart
        · rw [if_pos hskip, if_neg (by omega)]
        · have hend : r.base + (d.numberOfPages * 4096 - (r.base - d.physicalStart)) =
              d.physicalStart + d.numberOfPages * 4096 := by omega
          rw [if_neg hskip, clipTop_eq (Nat.le_refl _), hend]
          exact if_congr (by omega) rfl rfl
      · rw [if_neg hbelow, clipTop_eq (by omega), Nat.max_eq_right (by omega)]
        exact if_congr (by omega) rfl rfl
    · rw [if_neg hsize, Option.bind_none, if_neg (by omega)]
  · rw [checkedAdd_eq_none_iff.mpr (by omega), Option.bind_none, if_neg (by omega)]

/-- The clipped range is what the descriptor has in the entry. -/
theorem clipToEntry_some {r : MemmapEntry} {d : EfiMemoryDescriptor} {b n : Nat}
    (h : clipToEntry r d = some (b, n)) :
    DescriptorFits d ∧ r.base ≤ b ∧ b + n ≤ r.base + r.length ∧
      ∀ a, (b ≤ a ∧ a < b + n) ↔ a ∈ r.span ∧ Describes d a := by
  rw [clipToEntry_eq] at h
  split at h
  · next hmeet =>
    simp only [Option.some.injEq, Prod.mk.injEq] at h
    obtain ⟨rfl, rfl⟩ := h
    unfold Describes
    refine ⟨hmeet.2.1, by omega, by omega, fun a => ?_⟩
    rw [mem_span]
    omega
  · cases h

/-- A descriptor that is passed over has nothing in the entry, unless it overflows. -/
theorem clipToEntry_none {r : MemmapEntry} {d : EfiMemoryDescriptor} (hr : r.NoOverflow)
    (hd : DescriptorFits d) (h : clipToEntry r d = none) {a : Nat} (ha : a ∈ r.span) :
    ¬ Describes d a := by
  rw [clipToEntry_eq] at h
  split at h
  · cases h
  · next hmeet =>
    rw [mem_span] at ha
    unfold Describes
    intro hdes
    exact hmeet ⟨hr, hd, by omega, by omega⟩

/-- The carves for one entry. -/
def jobsOf (raw : Bool) (efiMmap : List EfiMemoryDescriptor) (r : MemmapEntry) : List MemmapEntry :=
  efiMmap.filterMap fun d => (clipToEntry r d).map fun (b, n) => ⟨b, n, ourType raw d.type⟩

theorem mem_jobsOf {raw : Bool} {efiMmap : List EfiMemoryDescriptor} {r job : MemmapEntry} :
    job ∈ jobsOf raw efiMmap r ↔ ∃ d ∈ efiMmap, clipToEntry r d = some (job.base, job.length) ∧
      job.type = ourType raw d.type := by
  unfold jobsOf
  rw [List.mem_filterMap]
  constructor
  · rintro ⟨d, hd, h⟩
    obtain ⟨⟨b, n⟩, hc, rfl⟩ := Option.map_eq_some_iff.mp h
    exact ⟨d, hd, hc, rfl⟩
  · rintro ⟨d, hd, hc, ht⟩
    refine ⟨d, hd, ?_⟩
    rw [hc, Option.map_some, ← ht]

/-- The inner loop is a run of carves. -/
theorem reclaimEntry_foldlM (cfg : Config) (raw : Bool) (efiMmap : List EfiMemoryDescriptor)
    (r : MemmapEntry) (m : Memmap) :
    efiMmap.foldlM (reclaimEntry cfg raw r) m = (jobsOf raw efiMmap r).foldlM (carveJob cfg) m := by
  induction efiMmap generalizing m with
  | nil => rfl
  | cons d efiMmap ih =>
    rw [List.foldlM_cons]
    unfold jobsOf at ih ⊢
    cases hc : clipToEntry r d with
    | none =>
      have hrun : reclaimEntry cfg raw r m d = .ok m := by
        unfold reclaimEntry
        rw [hc]
      rw [hrun, List.filterMap_cons_none (by rw [hc]; rfl), ← ih]
      rfl
    | some p =>
      obtain ⟨b, n⟩ := p
      have hrun : reclaimEntry cfg raw r m d = carveJob cfg m ⟨b, n, ourType raw d.type⟩ := by
        unfold reclaimEntry carveJob
        rw [hc]
      rw [List.filterMap_cons_some (b := ⟨b, n, ourType raw d.type⟩) (by rw [hc]; rfl),
        List.foldlM_cons, hrun]
      congr 1
      funext m
      exact ih m

theorem reclaim_foldlM (cfg : Config) (raw : Bool) (efiMmap : List EfiMemoryDescriptor)
    (recl : List MemmapEntry) (m : Memmap) :
    recl.foldlM (fun m r => efiMmap.foldlM (reclaimEntry cfg raw r) m) m =
      (recl.flatMap (jobsOf raw efiMmap)).foldlM (carveJob cfg) m := by
  induction recl generalizing m with
  | nil => rfl
  | cons r recl ih =>
    rw [List.foldlM_cons, List.flatMap_cons, List.foldlM_append, reclaimEntry_foldlM]
    congr 1
    funext m
    exact ih m

/-- Descriptors apart from each other, within entries apart from each other. -/
theorem jobs_disjoint {raw : Bool} {efiMmap : List EfiMemoryDescriptor} {recl : List MemmapEntry}
    (hr : AllDisjoint recl)
    (hd : efiMmap.Pairwise fun d d' => ∀ a, Describes d a → ¬ Describes d' a) :
    AllDisjoint (recl.flatMap (jobsOf raw efiMmap)) := by
  have hspan : ∀ {r job : MemmapEntry}, job ∈ jobsOf raw efiMmap r → ∀ a ∈ job.span, a ∈ r.span := by
    intro r job hj a ha
    obtain ⟨d, -, hc, -⟩ := mem_jobsOf.mp hj
    exact ((clipToEntry_some hc).2.2.2 a).mp ha |>.1
  unfold AllDisjoint
  rw [List.flatMap_def, List.pairwise_flatten]
  constructor
  · intro l hl
    obtain ⟨r, -, rfl⟩ := List.mem_map.mp hl
    refine List.pairwise_filterMap.mpr (hd.imp fun {d d'} h x hx y hy => ?_)
    obtain ⟨⟨b, n⟩, hc, rfl⟩ := Option.map_eq_some_iff.mp hx
    obtain ⟨⟨b', n'⟩, hc', rfl⟩ := Option.map_eq_some_iff.mp hy
    refine Set.disjoint_left.mpr fun a ha ha' => ?_
    exact h a (((clipToEntry_some hc).2.2.2 a).mp ha).2 (((clipToEntry_some hc').2.2.2 a).mp ha').2
  · rw [List.pairwise_map]
    refine hr.imp fun {r r'} h x hx y hy => ?_
    exact Set.disjoint_left.mpr fun a ha ha' =>
      Set.disjoint_left.mp h (hspan hx a ha) (hspan hy a ha')

theorem length_jobs (raw : Bool) (efiMmap : List EfiMemoryDescriptor) (recl : List MemmapEntry) :
    (recl.flatMap (jobsOf raw efiMmap)).length ≤ recl.length * efiMmap.length := by
  induction recl with
  | nil => simp
  | cons r recl ih =>
    have : (jobsOf raw efiMmap r).length ≤ efiMmap.length := List.length_filterMap_le _ _
    rw [List.flatMap_cons, List.length_append, List.length_cons, Nat.add_mul, Nat.one_mul]
    omega

/-! ## The function -/

/-- **Reclaiming EFI memory.**  With room for two entries per noted entry and descriptor there is
no panic; what a descriptor describes of EFI reclaimable memory gets its type, and nothing else
changes. -/
theorem pmmReclaimUefiMem_reclaims (cfg : Config) (efiMmap : List EfiMemoryDescriptor) (m : Memmap)
    (raw : Bool) (hm : Sanitised cfg.keepFirstPage false m)
    (hd : m.Pairwise fun e r => e.type ≠ memmapUsable → r.type ≠ memmapUsable → Disjoint e.span r.span)
    (hcount : (m.filter fun e => e.type == memmapEfiReclaimable).length < 1024)
    (hmap : efiMmap.Pairwise fun d d' => ∀ a, Describes d a → ¬ Describes d' a)
    (hroom : m.length + 2 * ((m.filter fun e => e.type == memmapEfiReclaimable).length *
      efiMmap.length) ≤ cfg.maxEntries) :
    ∃ m', pmmReclaimUefiMem cfg efiMmap m raw = .ok m' ∧
      (∀ a, Covers m memmapEfiReclaimable a → ∀ d ∈ efiMmap, DescriptorFits d → Describes d a →
        typesAt m' a = {t | t = ourType raw d.type ∧ InReach cfg.keepFirstPage t a}) ∧
      (∀ a, Covers m memmapEfiReclaimable a →
        (∀ d ∈ efiMmap, DescriptorFits d → ¬ Describes d a) → typesAt m' a = {memmapEfiReclaimable}) ∧
      (∀ a, ¬ Covers m memmapEfiReclaimable a → typesAt m' a = typesAt m a) := by
  have hall : AllDisjoint m := by
    refine (hm.disjoint.and hd).imp fun {e r} h => ?_
    by_cases hu : e.type = memmapUsable ∨ r.type = memmapUsable
    · exact h.1 hu
    · rw [not_or] at hu
      exact h.2 hu.1 hu.2
  generalize hrecl : (m.filter fun e => e.type == memmapEfiReclaimable) = recl at hcount hroom
  have hmem : ∀ r, r ∈ recl ↔ r ∈ m ∧ r.type = memmapEfiReclaimable := by
    intro r
    rw [← hrecl, List.mem_filter, beq_iff_eq]
  have hjob : ∀ job ∈ recl.flatMap (jobsOf raw efiMmap), InEfiEntry m job := by
    intro job hj
    obtain ⟨r, hr, hj⟩ := List.mem_flatMap.mp hj
    obtain ⟨d, -, hc, -⟩ := mem_jobsOf.mp hj
    obtain ⟨-, h₁, h₂, -⟩ := clipToEntry_some hc
    exact ⟨r, ((hmem r).mp hr).1, ((hmem r).mp hr).2, h₁, h₂⟩
  have hlen := length_jobs raw efiMmap recl
  have hrun := carveAll_ensures cfg (recl.flatMap (jobsOf raw efiMmap)) m hm hall
    (jobs_disjoint (hrecl ▸ hall.filter _) hmap) fun job hj _ => hjob job hj
  cases hfold : (recl.flatMap (jobsOf raw efiMmap)).foldlM (carveJob cfg) m with
  | error stop =>
    rw [hfold] at hrun
    cases stop with
    | panic msg =>
      have hfull : cfg.maxEntries < m.length + 2 * (recl.flatMap (jobsOf raw efiMmap)).length := hrun
      omega
    | outOfFuel => exact hrun.elim
  | ok m' =>
    have hc := hrun.of_ok hfold
    refine ⟨m', ?_, ?_, ?_, ?_⟩
    · unfold pmmReclaimUefiMem
      dsimp only
      rw [hrecl, if_neg (by omega), reclaim_foldlM, hfold]
      exact hc.sanitised.eq_self cfg.maxEntries
    · rintro a ⟨r, hr, htr, ha⟩ d hdm hfit hdes
      cases hclip : clipToEntry r d with
      | none => exact absurd hdes (clipToEntry_none (hm.noneOverflows r hr) hfit hclip ha)
      | some p =>
        obtain ⟨b, n⟩ := p
        have hj : (⟨b, n, ourType raw d.type⟩ : MemmapEntry) ∈ recl.flatMap (jobsOf raw efiMmap) :=
          List.mem_flatMap.mpr ⟨r, (hmem r).mpr ⟨hr, htr⟩, mem_jobsOf.mpr ⟨d, hdm, hclip, rfl⟩⟩
        rw [hc.inside _ hj a (((clipToEntry_some hclip).2.2.2 a).mpr ⟨ha, hdes⟩)]
        ext t
        constructor
        · rintro ⟨rfl, h⟩
          exact ⟨rfl, h⟩
        · rintro ⟨rfl, h⟩
          exact ⟨rfl, h⟩
    · rintro a ⟨r, hr, htr, ha⟩ hno
      rw [hc.outside]
      · -- the entry that covers the address is the only one
        ext t
        rw [Set.mem_singleton_iff]
        constructor
        · rintro ⟨r', hr', rfl, ha'⟩
          by_contra hne
          obtain ⟨i, hi, rfl⟩ := List.getElem_of_mem hr
          obtain ⟨j, hj, rfl⟩ := List.getElem_of_mem hr'
          have hij : i ≠ j := by
            rintro rfl
            exact hne htr
          rcases Nat.lt_or_gt_of_ne hij with h | h
          · exact Set.disjoint_left.mp (List.pairwise_iff_getElem.mp hall i j hi hj h) ha ha'
          · exact Set.disjoint_left.mp (List.pairwise_iff_getElem.mp hall j i hj hi h) ha' ha
        · rintro rfl
          exact ⟨r, hr, htr, ha⟩
      · intro job hj hin
        obtain ⟨r', -, hj⟩ := List.mem_flatMap.mp hj
        obtain ⟨d, hdm, hclip, -⟩ := mem_jobsOf.mp hj
        obtain ⟨hfit, -, -, hiff⟩ := clipToEntry_some hclip
        exact hno d hdm hfit ((hiff a).mp hin).2
    · intro a hno
      refine hc.outside a fun job hj hin => hno ?_
      obtain ⟨r, hr, hj⟩ := List.mem_flatMap.mp hj
      obtain ⟨d, -, hclip, -⟩ := mem_jobsOf.mp hj
      obtain ⟨-, -, -, hiff⟩ := clipToEntry_some hclip
      exact ⟨r, ((hmem r).mp hr).1, ((hmem r).mp hr).2, ((hiff a).mp hin).1⟩

/-- A boot services page between conventional memory, in an entry the loader had taken whole. -/
theorem pmmReclaimUefiMem_reclaims_page :
    ∃ m', pmmReclaimUefiMem ⟨512, true, true⟩
        [⟨efiConventionalMemory, 0xff000, 0, 2, 0⟩, ⟨efiBootServicesData, 0x101000, 0, 1, 0⟩]
        [⟨0x100000, 0x4000, memmapEfiReclaimable⟩] false = .ok m' ∧
      typesAt m' 0x101000 = {t | t = memmapBootloaderReclaimable ∧ InReach true t 0x101000} ∧
      typesAt m' 0x102000 = {memmapEfiReclaimable} := by
  have hm : Sanitised true false [⟨0x100000, 0x4000, memmapEfiReclaimable⟩] :=
    ⟨by unfold NoneOverflows; decide, List.pairwise_singleton _ _, List.pairwise_singleton _ _,
      by decide, fun e he ht => absurd ht (by rw [List.mem_singleton.mp he]; decide),
      fun _ _ _ => Or.inl rfl, List.IsChain.singleton _⟩
  have hmap : [(⟨efiConventionalMemory, 0xff000, 0, 2, 0⟩ : EfiMemoryDescriptor),
      ⟨efiBootServicesData, 0x101000, 0, 1, 0⟩].Pairwise fun d d' =>
        ∀ a, Describes d a → ¬ Describes d' a := by
    refine List.pairwise_pair.mpr fun a h h' => ?_
    have := h.2
    have := h'.1
    simp only at *
    omega
  obtain ⟨m', hrun, h₁, h₂, -⟩ := pmmReclaimUefiMem_reclaims ⟨512, true, true⟩
    [⟨efiConventionalMemory, 0xff000, 0, 2, 0⟩, ⟨efiBootServicesData, 0x101000, 0, 1, 0⟩]
    [⟨0x100000, 0x4000, memmapEfiReclaimable⟩] false hm (List.pairwise_singleton _ _) (by decide) hmap
    (by decide)
  refine ⟨m', hrun, ?_, ?_⟩
  · exact h₁ 0x101000 ⟨_, List.mem_singleton_self _, rfl, by decide, by decide⟩
      ⟨efiBootServicesData, 0x101000, 0, 1, 0⟩ (by decide) (by unfold DescriptorFits; decide)
      ⟨by decide, by decide⟩
  · refine h₂ 0x102000 ⟨_, List.mem_singleton_self _, rfl, by decide, by decide⟩ ?_
    intro d hd _ hdes
    have hlt := hdes.2
    rcases List.mem_pair.mp hd with rfl | rfl
    · simp only at hlt
      omega
    · simp only at hlt
      omega

end Limine.Pmm
