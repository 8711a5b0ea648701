import Limine.Lib.Triple
import Limine.Loader.Memory

/-!
# The paging mode and the offset of the direct map

A mode has a number of virtual address bits, of which the higher half is the upper half.  The direct
map begins in its first quarter, which is as far as `set_paging_mode` moves it.
-/

namespace Limine.Protos
open Limine.Lib Limine.Loader

/-- What a port has for a paging mode: `paging_mode_va_bits` and `paging_mode_higher_half`. -/
structure PagingMode where
  vaBits : Nat
  higherHalf : Nat
  vaBits_ge : 39 ≤ vaBits
  vaBits_le : vaBits ≤ 64
  higherHalf_eq : higherHalf = 2 ^ 64 - 2 ^ (vaBits - 1)

namespace PagingMode

def x86Lvl4 : PagingMode := ⟨48, 0xffff800000000000, by decide, by decide, by decide⟩
def x86Lvl5 : PagingMode := ⟨57, 0xff00000000000000, by decide, by decide, by decide⟩
def aarch64Lvl4 : PagingMode := ⟨49, 0xffff000000000000, by decide, by decide, by decide⟩
def aarch64Lvl5 : PagingMode := ⟨53, 0xfff0000000000000, by decide, by decide, by decide⟩
def riscvSv39 : PagingMode := ⟨39, 0xffffffc000000000, by decide, by decide, by decide⟩
def riscvSv48 : PagingMode := ⟨48, 0xffff800000000000, by decide, by decide, by decide⟩
def riscvSv57 : PagingMode := ⟨57, 0xff00000000000000, by decide, by decide, by decide⟩

/-- The one mode of LoongArch, with the VALEN the processor reports. -/
def loongarch64Lvl4 (valen : Nat) (hge : 39 ≤ valen) (hle : valen ≤ 64) : PagingMode :=
  ⟨valen, 2 ^ 64 - 2 ^ (valen - 1), hge, hle, rfl⟩

end PagingMode

/-- The random part of the offset: whole GiB, in a quarter of the higher half. -/
def hhdmWiggle (mode : PagingMode) (rand : Nat) : Nat :=
  let mask := 2 ^ (mode.vaBits - 3) - 1
  rand &&& (2 ^ 64 - 0x40000000) &&& mask

/-- `set_paging_mode`: the offset of the direct map; `rand` is what `safe_rand64` gives. -/
def setPagingMode (mode : PagingMode) (randomiseHhdmBase : Bool) (rand : Nat) : Nat :=
  if randomiseHhdmBase then add64 mode.higherHalf (hhdmWiggle mode rand) else mode.higherHalf

theorem hhdmWiggle_lt (mode : PagingMode) (rand : Nat) : hhdmWiggle mode rand < 2 ^ (mode.vaBits - 3) := by
  have hle : hhdmWiggle mode rand ≤ 2 ^ (mode.vaBits - 3) - 1 := Nat.and_le_right
  have hpos := Nat.two_pow_pos (mode.vaBits - 3)
  omega

theorem hhdmWiggle_dvd (mode : PagingMode) (rand : Nat) : 0x40000000 ∣ hhdmWiggle mode rand := by
  apply Nat.dvd_of_mod_eq_zero
  show (rand &&& (2 ^ 64 - 0x40000000) &&& _) % 2 ^ 30 = 0
  rw [Nat.and_mod_two_pow, Nat.and_mod_two_pow]
  show rand % 2 ^ 30 &&& 0 &&& _ = 0
  rw [Nat.and_zero, Nat.zero_and]

/-- The quarters of a mode's higher half. -/
theorem PagingMode.quarter (mode : PagingMode) : ∃ q, 2 ^ (mode.vaBits - 3) = 2 ^ 36 * q ∧ 0 < q ∧
    2 ^ (mode.vaBits - 3) ≤ 2 ^ 61 ∧ 2 ^ (mode.vaBits - 2) = 2 * 2 ^ (mode.vaBits - 3) ∧
    2 ^ (mode.vaBits - 1) = 4 * 2 ^ (mode.vaBits - 3) := by
  obtain ⟨k, hk⟩ := Nat.exists_eq_add_of_le mode.vaBits_ge
  have hle := mode.vaBits_le
  refine ⟨2 ^ k, ?_, Nat.two_pow_pos k, Nat.pow_le_pow_right (by decide) (by omega), ?_, ?_⟩
  · rw [← Nat.pow_add]
    congr 1
    omega
  · rw [← Nat.pow_succ']
    congr 1
    omega
  · rw [show (4 : Nat) = 2 ^ 2 from rfl, ← Nat.pow_add]
    congr 1
    omega

/-- Where the direct map begins: in the first quarter of the higher half, at a GiB. -/
theorem setPagingMode_spec (mode : PagingMode) (randomise : Bool) (rand : Nat) :
    0x40000000 ∣ setPagingMode mode randomise rand ∧ mode.higherHalf ≤ setPagingMode mode randomise rand ∧
      setPagingMode mode randomise rand < mode.higherHalf + 2 ^ (mode.vaBits - 3) := by
  obtain ⟨q, hq, hpos, hle, -, hhalf⟩ := mode.quarter
  have hhigh := mode.higherHalf_eq
  have hlt := hhdmWiggle_lt mode rand
  have hdvd := hhdmWiggle_dvd mode rand
  unfold setPagingMode
  by_cases h : randomise = true
  · rw [if_pos h, add64_eq (by omega)]
    exact ⟨by omega, by omega, by omega⟩
  · rw [if_neg h]
    exact ⟨by omega, by omega, by omega⟩

/-- The direct map is in the upper half of the address space. -/
theorem setPagingMode_ge (mode : PagingMode) (randomise : Bool) (rand : Nat) :
    2 ^ 63 ≤ setPagingMode mode randomise rand ∧ setPagingMode mode randomise rand < 2 ^ 64 := by
  obtain ⟨-, hge, hlt⟩ := setPagingMode_spec mode randomise rand
  obtain ⟨q, hq, hpos, hle, -, hhalf⟩ := mode.quarter
  have hhigh := mode.higherHalf_eq
  constructor <;> omega

/-! ## The choice of the mode -/

/-- The modes of a port by their numbers, and what the configuration calls them. -/
structure PagingPort where
  lowest : Int × PagingMode
  higher : List (Int × PagingMode)
  /-- `PAGING_MODE_MAX` -/
  modeMax : Int
  names : List (String × Int)
  /-- `paging_mode_limine_to_vmm` -/
  limineToVmm : Nat → Nat
  /-- the mode without a request, from the highest supported one -/
  defaultMode : Int → Int
  ascending : (lowest :: higher).Pairwise fun a b => a.1 < b.1 ∧ a.2.vaBits ≤ b.2.vaBits
  complete : ∀ n, lowest.1 ≤ n → n ≤ modeMax → ∃ m ∈ lowest :: higher, m.1 = n
  modes_le : ∀ m ∈ lowest :: higher, m.1 ≤ modeMax
  names_le : ∀ m ∈ names, m.2 ≤ modeMax

namespace PagingPort

def x86 : PagingPort where
  lowest := (0, .x86Lvl4)
  higher := [(1, .x86Lvl5)]
  modeMax := 1
  names := [("4level", 0), ("5level", 1)]
  limineToVmm := id
  defaultMode _ := 0
  ascending := List.pairwise_pair.mpr (by decide)
  complete n h1 h2 := by simp; omega
  modes_le := by decide
  names_le := by decide

def aarch64 : PagingPort where
  lowest := (0, .aarch64Lvl4)
  higher := [(1, .aarch64Lvl5)]
  modeMax := 1
  names := [("4level", 0), ("5level", 1)]
  limineToVmm := id
  defaultMode _ := 0
  ascending := List.pairwise_pair.mpr (by decide)
  complete n h1 h2 := by simp; omega
  modes_le := by decide
  names_le := by decide

def riscv64 : PagingPort where
  lowest := (8, .riscvSv39)
  higher := [(9, .riscvSv48), (10, .riscvSv57)]
  modeMax := 10
  names := [("sv39", 8), ("sv48", 9), ("sv57", 10)]
  limineToVmm x := (8 + x) % 2 ^ 64
  defaultMode maxSupported := if 9 ≤ maxSupported then 9 else 8
  ascending := by decide
  complete n h1 h2 := by simp; omega
  modes_le := by decide
  names_le := by decide

def loongarch64 (valen : Nat) (hge : 39 ≤ valen) (hle : valen ≤ 64) : PagingPort where
  lowest := (0, .loongarch64Lvl4 valen hge hle)
  higher := []
  modeMax := 0
  names := [("4level", 0)]
  limineToVmm := id
  defaultMode _ := 0
  ascending := List.pairwise_singleton _ _
  complete n h1 h2 := by simp; omega
  modes_le := by simp
  names_le := by decide

/-- A `uint64_t` in an `int`. -/
def toInt (x : Nat) : Int := (BitVec.ofNat 32 x).toInt

/-- The lowest mode with room for the direct map, of which a port with one mode tries no other:
`none` is `hhdm_fail`. -/
def minSupported (hhdmSpanTop : Nat) (maxSupported : Int) :
    Int × PagingMode → List (Int × PagingMode) → Option (Int × PagingMode)
  | mode, [] => if 2 ^ (mode.2.vaBits - 2) ≤ hhdmSpanTop then none else some mode
  | mode, next :: modes =>
    if 2 ^ (mode.2.vaBits - 2) ≤ hhdmSpanTop then
      if maxSupported < next.1 then none else minSupported hhdmSpanTop maxSupported next modes
    else minSupported hhdmSpanTop maxSupported mode modes

/-- `PAGING_MODE`, `MAX_PAGING_MODE` and `MIN_PAGING_MODE` of the configuration. -/
structure UserModes where
  pagingMode : Option String
  maxPagingMode : Option String
  minPagingMode : Option String

def userMode (port : PagingPort) (value : Option String) (unset : Int) (invalid : String) : Exec Int :=
  match value with
  | none => .ok unset
  | some s =>
    match port.names.lookup s.toLower with
    | some mode => .ok mode
    | none => .error (.panic invalid)

def limitMax (userMax minSupported maxSupported : Int) : Exec Int :=
  if userMax < maxSupported then
    if userMax < minSupported then
      .error (.panic "limine: User set MAX_PAGING_MODE less than minimum supported paging mode")
    else .ok userMax
  else .ok maxSupported

def limitMin (userMin minSupported maxSupported : Int) : Exec Int :=
  if minSupported < userMin then
    if maxSupported < userMin then
      .error (.panic "limine: User set MIN_PAGING_MODE greater than maximum supported paging mode")
    else .ok userMin
  else .ok minSupported

/-- `struct limine_paging_mode_request`; the limits are there from revision 1 on. -/
structure PagingModeRequest where
  mode : Nat
  minMode : Nat
  maxMode : Nat
  hasRev1 : Bool

/-- The executable's own limits, the lower one first. -/
def kernModes (port : PagingPort) (request : PagingModeRequest) : Int × Int :=
  if request.hasRev1 then
    (toInt (port.limineToVmm request.minMode), toInt (port.limineToVmm request.maxMode))
  else (port.lowest.1, toInt (port.limineToVmm request.mode))

def capMode (mode kernMax minSupported : Int) : Exec Int :=
  if kernMax < mode then
    if kernMax < minSupported then
      .error (.panic "limine: Executable's maximum supported paging mode lower than minimum allowable paging mode")
    else .ok kernMax
  else .ok mode

def floorMode (mode kernMin maxSupported : Int) : Exec Int :=
  if mode < kernMin then
    if maxSupported < kernMin then
      .error (.panic "limine: Executable's minimum supported paging mode higher than maximum allowable paging mode")
    else .ok kernMin
  else .ok mode

/-- The mode of an executable that asks for one. -/
def requestedMode (port : PagingPort) (request : PagingModeRequest) (minSupported maxSupported : Int) :
    Exec Int :=
  let target := toInt (port.limineToVmm request.mode)
  let (kernMin, kernMax) := kernModes port request
  let mode := if maxSupported < target then maxSupported else target
  let mode := if mode < minSupported then minSupported else mode
  if kernMax < kernMin then .error (.panic "limine: Executable's paging max_mode lower than min_mode")
  else do
    let mode ← capMode mode kernMax minSupported
    floorMode mode kernMin maxSupported

/-- The mode of an executable that does not. -/
def unrequestedMode (port : PagingPort) (minSupported maxSupported : Int) : Exec Int :=
  let mode := port.defaultMode maxSupported
  let mode := if maxSupported < mode then maxSupported else mode
  if mode < minSupported then
    .error (.panic "limine: Default paging mode lower than minimum allowable paging mode")
  else .ok mode

def chooseMode (port : PagingPort) (request : Option PagingModeRequest) (minSupported maxSupported : Int) : Exec Int :=
  match request with
  | some request => requestedMode port request minSupported maxSupported
  | none => unrequestedMode port minSupported maxSupported

/-- How `limine_load` comes to `paging_mode`. -/
def pagingMode (port : PagingPort) (maxSupported : Int) (hhdmSpanTop : Nat) (user : UserModes)
    (request : Option PagingModeRequest) : Exec Int :=
  match minSupported hhdmSpanTop maxSupported port.lowest port.higher with
  | none => .error (.panic "limine: Unable to allocate higher half direct map (too much memory?)")
  | some lowest => do
    let userMax ← userMode port (user.pagingMode <|> user.maxPagingMode) port.modeMax
      "limine: Invalid MAX_PAGING_MODE: `%s`"
    let userMin ← userMode port (user.pagingMode <|> user.minPagingMode) port.lowest.1
      "limine: Invalid MIN_PAGING_MODE: `%s`"
    if userMax < userMin then .error (.panic "limine: MAX_PAGING_MODE is lower than MIN_PAGING_MODE")
    else do
      let maxSupported ← limitMax userMax lowest.1 maxSupported
      let minSupported ← limitMin userMin lowest.1 maxSupported
      chooseMode port request minSupported maxSupported

variable {port : PagingPort} {hhdmSpanTop : Nat}

theorem minSupported_spec {maxSupported : Int} {modes : List (Int × PagingMode)} :
    ∀ {mode m : Int × PagingMode}, minSupported hhdmSpanTop maxSupported mode modes = some m →
      m ∈ mode :: modes ∧ hhdmSpanTop < 2 ^ (m.2.vaBits - 2) := by
  induction modes with
  | nil =>
    intro mode m h
    unfold minSupported at h
    by_cases hfull : 2 ^ (mode.2.vaBits - 2) ≤ hhdmSpanTop
    · rw [if_pos hfull] at h
      cases h
    · rw [if_neg hfull] at h
      cases h
      exact ⟨List.mem_singleton_self _, by omega⟩
  | cons next modes ih =>
    intro mode m h
    unfold minSupported at h
    by_cases hfull : 2 ^ (mode.2.vaBits - 2) ≤ hhdmSpanTop
    · rw [if_pos hfull] at h
      by_cases hmax : maxSupported < next.1
      · rw [if_pos hmax] at h
        cases h
      · rw [if_neg hmax] at h
        obtain ⟨hm, hlt⟩ := ih h
        exact ⟨List.mem_cons_of_mem _ hm, hlt⟩
    · rw [if_neg hfull] at h
      obtain ⟨hm, hlt⟩ := ih h
      refine ⟨?_, hlt⟩
      rcases List.mem_cons.mp hm with rfl | hm
      · exact List.mem_cons_self
      · exact List.mem_cons_of_mem _ (List.mem_cons_of_mem _ hm)

/-- A higher mode has at least the bits of a lower one. -/
theorem vaBits_mono {a b : Int × PagingMode} (ha : a ∈ port.lowest :: port.higher)
    (hb : b ∈ port.lowest :: port.higher) (h : a.1 ≤ b.1) : a.2.vaBits ≤ b.2.vaBits := by
  have hup : (port.lowest :: port.higher).Pairwise fun a b => a.1 ≤ b.1 → a.2.vaBits ≤ b.2.vaBits :=
    port.ascending.imp fun hab _ => hab.2
  have hdown : (port.lowest :: port.higher).Pairwise (flip fun a b => a.1 ≤ b.1 → a.2.vaBits ≤ b.2.vaBits) :=
    port.ascending.imp fun hab hba => absurd hba (by omega)
  exact hup.forall_of_forall_of_flip (fun x _ _ => Nat.le_refl _) hdown ha hb h

theorem userMode_le {value : Option String} {unset mode : Int} {invalid : String}
    (h : userMode port value unset invalid = .ok mode) (hunset : unset ≤ port.modeMax) : mode ≤ port.modeMax := by
  unfold userMode at h
  cases value with
  | none =>
    cases h
    exact hunset
  | some s =>
    cases hname : port.names.lookup s.toLower with
    | none =>
      simp only [hname] at h
      cases h
    | some n =>
      simp only [hname] at h
      cases h
      obtain ⟨l₁, l₂, heq, -⟩ := List.lookup_eq_some_iff.mp hname
      exact port.names_le _ (heq ▸ List.mem_append_right l₁ List.mem_cons_self)

theorem limitMax_spec {userMax minSupported maxSupported max : Int}
    (h : limitMax userMax minSupported maxSupported = .ok max) : max ≤ userMax := by
  unfold limitMax at h
  by_cases h1 : userMax < maxSupported
  · rw [if_pos h1] at h
    by_cases h2 : userMax < minSupported
    · rw [if_pos h2] at h
      cases h
    · rw [if_neg h2] at h
      cases h
      exact Int.le_refl _
  · rw [if_neg h1] at h
    cases h
    omega

/-- `limitMin` and `floorMode` take the higher of two modes, if it is no higher than `top`. -/
theorem limitMin_spec {userMin minSupported maxSupported min : Int}
    (h : limitMin userMin minSupported maxSupported = .ok min) :
    minSupported ≤ min ∧ (min = minSupported ∨ min ≤ maxSupported) := by
  unfold limitMin at h
  by_cases h1 : minSupported < userMin
  · rw [if_pos h1] at h
    by_cases h2 : maxSupported < userMin
    · rw [if_pos h2] at h
      cases h
    · rw [if_neg h2] at h
      cases h
      exact ⟨by omega, .inr (by omega)⟩
  · rw [if_neg h1] at h
    cases h
    exact ⟨Int.le_refl _, .inl rfl⟩

theorem capMode_spec {mode kernMax minSupported mode' : Int} (h : capMode mode kernMax minSupported = .ok mode')
    (hmin : minSupported ≤ mode) : minSupported ≤ mode' ∧ mode' ≤ mode := by
  unfold capMode at h
  by_cases h1 : kernMax < mode
  · rw [if_pos h1] at h
    by_cases h2 : kernMax < minSupported
    · rw [if_pos h2] at h
      cases h
    · rw [if_neg h2] at h
      cases h
      exact ⟨by omega, by omega⟩
  · rw [if_neg h1] at h
    cases h
    exact ⟨hmin, Int.le_refl _⟩

theorem floorMode_spec {mode kernMin maxSupported mode' : Int}
    (h : floorMode mode kernMin maxSupported = .ok mode') :
    mode ≤ mode' ∧ (mode' = mode ∨ mode' ≤ maxSupported) := by
  unfold floorMode at h
  by_cases h1 : mode < kernMin
  · rw [if_pos h1] at h
    by_cases h2 : maxSupported < kernMin
    · rw [if_pos h2] at h
      cases h
    · rw [if_neg h2] at h
      cases h
      exact ⟨by omega, .inr (by omega)⟩
  · rw [if_neg h1] at h
    cases h
    exact ⟨Int.le_refl _, .inl rfl⟩

/-- The mode is one of the supported ones. -/
theorem chooseMode_spec {request : Option PagingModeRequest} {minSupported maxSupported mode : Int}
    (h : chooseMode port request minSupported maxSupported = .ok mode) :
    minSupported ≤ mode ∧ (mode ≤ minSupported ∨ mode ≤ maxSupported) := by
  unfold chooseMode at h
  cases request with
  | none =>
    simp only [unrequestedMode] at h
    generalize hmode : (if maxSupported < port.defaultMode maxSupported then maxSupported
      else port.defaultMode maxSupported) = capped at h
    have hle : capped ≤ maxSupported := by
      split at hmode <;> omega
    split at h
    · cases h
    · cases h
      exact ⟨by omega, .inr hle⟩
  | some request =>
    simp only [requestedMode] at h
    split at h
    · cases h
    · obtain ⟨capped, hcap, hfloor⟩ := except_bind_eq_ok.mp h
      obtain ⟨hge, hle⟩ := capMode_spec hcap (by split <;> omega)
      obtain ⟨hfloor, htop⟩ := floorMode_spec hfloor
      split at hle <;> split at hle <;> omega

/-- **The mode has room for the direct map**: what it spans is less than a quarter of the addresses. -/
theorem pagingMode_spec {maxSupported n : Int} {user : UserModes} {request : Option PagingModeRequest}
    (h : pagingMode port maxSupported hhdmSpanTop user request = .ok n) :
    (∃ mode, (n, mode) ∈ port.lowest :: port.higher) ∧
      ∀ mode, (n, mode) ∈ port.lowest :: port.higher → hhdmSpanTop < 2 ^ (mode.vaBits - 2) := by
  unfold pagingMode at h
  cases hmin : minSupported hhdmSpanTop maxSupported port.lowest port.higher with
  | none =>
    rw [hmin] at h
    cases h
  | some lowest =>
    rw [hmin] at h
    obtain ⟨hmem, hroom⟩ := minSupported_spec hmin
    obtain ⟨userMax, huserMax, h⟩ := except_bind_eq_ok.mp h
    obtain ⟨userMin, huserMin, h⟩ := except_bind_eq_ok.mp h
    split at h
    · cases h
    obtain ⟨max, hmax, h⟩ := except_bind_eq_ok.mp h
    obtain ⟨min, hmin', h⟩ := except_bind_eq_ok.mp h
    have htop := limitMax_spec hmax
    have huser := userMode_le huserMax (Int.le_refl _)
    have hlowest := port.modes_le _ hmem
    obtain ⟨hge, hle⟩ := limitMin_spec hmin'
    obtain ⟨hge', hle'⟩ := chooseMode_spec h
    have hfirst : port.lowest.1 ≤ lowest.1 := by
      rcases List.mem_cons.mp hmem with rfl | hhigher
      · exact Int.le_refl _
      · exact Int.le_of_lt ((List.pairwise_cons.mp port.ascending).1 _ hhigher).1
    refine ⟨?_, fun mode hmode => ?_⟩
    · obtain ⟨⟨n', mode⟩, hmode, hn⟩ := port.complete n (by omega) (by omega)
      obtain rfl : n' = n := hn
      exact ⟨mode, hmode⟩
    · have hbits : lowest.2.vaBits ≤ mode.vaBits := vaBits_mono hmem hmode (by show lowest.1 ≤ n; omega)
      exact Nat.lt_of_lt_of_le hroom (Nat.pow_le_pow_right (by decide) (by omega))

end PagingPort

end Limine.Protos
