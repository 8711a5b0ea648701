import Mathlib.Algebra.Group.Int.Defs
import Limine.Protos.PagingMode

/-!
# What an executable gets for its paging mode request

The limits of the request and the mode it asks for are 64-bit numbers, which the code compares as `int`s.
A number from 2^31 on turns into a lower one, and so a limit that allows everything may refuse, and one that
refuses may allow (`negotiatedMode_selects_iff`).
-/

namespace Limine.Protos.PagingPort
open Limine.Lib Limine.Loader

/-- The ports of the source. -/
inductive IsPort : PagingPort → Prop
  | x86 : IsPort .x86
  | aarch64 : IsPort .aarch64
  | riscv64 : IsPort .riscv64
  | loongarch64 (valen : Nat) (hge : 39 ≤ valen) (hle : valen ≤ 64) : IsPort (.loongarch64 valen hge hle)

/-- The modes that the processor has, with room for the direct map. -/
structure SupportedModes (port : PagingPort) where
  min : Int
  max : Int
  lowest_le : port.lowest.1 ≤ min
  min_le : min ≤ max
  max_lt : max < 2 ^ 31

/-- The part of `pagingMode` from the limits of the configuration on. -/
def negotiatedMode (port : PagingPort) (supported : SupportedModes port) (userMin userMax : Int)
    (request : PagingModeRequest) : Exec Int :=
  if userMax < userMin then .error (.panic "limine: MAX_PAGING_MODE is lower than MIN_PAGING_MODE")
  else do
    let maxSupported ← limitMax userMax supported.min supported.max
    let minSupported ← limitMin userMin supported.min maxSupported
    requestedMode port request minSupported maxSupported

theorem pagingMode_eq {port : PagingPort} (supported : SupportedModes port) {hhdmSpanTop : Nat}
    {lowest : Int × PagingMode} {user : UserModes} {userMin userMax : Int} (request : PagingModeRequest)
    (hlowest : minSupported hhdmSpanTop supported.max port.lowest port.higher = some lowest)
    (hmin : lowest.1 = supported.min)
    (huserMax : userMode port (user.pagingMode <|> user.maxPagingMode) port.modeMax
      "limine: Invalid MAX_PAGING_MODE: `%s`" = .ok userMax)
    (huserMin : userMode port (user.pagingMode <|> user.minPagingMode) port.lowest.1
      "limine: Invalid MIN_PAGING_MODE: `%s`" = .ok userMin) :
    pagingMode port supported.max hhdmSpanTop user (some request) =
      negotiatedMode port supported userMin userMax request := by
  simp only [pagingMode, hlowest, huserMax, huserMin, hmin]
  rfl

/-! ## What is wanted -/

/-- `min_mode`; a request of revision 0 has none. -/
def PagingModeRequest.lowest (request : PagingModeRequest) : Nat := if request.hasRev1 then request.minMode else 0

/-- `max_mode`; for revision 0 it is the mode asked for. -/
def PagingModeRequest.highest (request : PagingModeRequest) : Nat :=
  if request.hasRev1 then request.maxMode else request.mode

section
variable (port : PagingPort) (supported : SupportedModes port) (userMin userMax : Int) (request : PagingModeRequest)

/-- A supported mode within the limits of the user. -/
structure Offered (m : Int) : Prop where
  supported_le : supported.min ≤ m
  le_supported : m ≤ supported.max
  user_le : userMin ≤ m
  le_user : m ≤ userMax

/-- The number that a request has for the mode, which counts from the port's lowest one. -/
def requestNumber (m : Int) : Int := m - port.lowest.1

/-- A mode that is offered and lies within the limits of the request. -/
structure Allowed (m : Int) : Prop extends Offered port supported userMin userMax m where
  request_le : (request.lowest : Int) ≤ requestNumber port m
  le_request : requestNumber port m ≤ request.highest

/-- How far the mode is from the one asked for. -/
def distance (m : Int) : Nat := (requestNumber port m - request.mode).natAbs

/-- An allowed mode, none of which is closer. -/
structure Closest (m : Int) : Prop extends Allowed port supported userMin userMax request m where
  closest : ∀ m', Allowed port supported userMin userMax request m' → distance port request m ≤ distance port request m'

/-- What the negotiation is for. -/
def Selects (result : Exec Int) : Prop :=
  match result with
  | .ok m => Closest port supported userMin userMax request m
  | .error _ => (¬ ∃ m, Allowed port supported userMin userMax request m) ∨ request.highest < request.lowest

/-- The `int` that the code makes of a number in the request. -/
def narrowed (n : Nat) : Int := toInt (port.limineToVmm n)

/-- The numbers of the request survive as `int`s as far as it matters. -/
structure NarrowsWell : Prop where
  /-- The mode wanted is not above the highest one as an `int`, nor, unless it is the lowest one allowed,
  above the one asked for. -/
  chosen : ∀ m, Closest port supported userMin userMax request m →
    m ≤ narrowed port request.highest ∧
      (m ≤ narrowed port request.mode ∨ ∀ m', Allowed port supported userMin userMax request m' → m ≤ m')
  /-- If no mode is allowed, the limits as `int`s do not allow one. -/
  refused : ∀ m, Offered port supported userMin userMax m → narrowed port request.lowest ≤ m →
    m ≤ narrowed port request.highest → ∃ m', Allowed port supported userMin userMax request m'

end

/-! ## Numbers as `int`s -/

theorem toInt_le (x : Nat) : toInt x ≤ x ∧ (x < 2 ^ 31 → toInt x = x) := by
  unfold toInt
  rw [BitVec.toInt_eq_toNat_bmod, BitVec.toNat_ofNat, Int.bmod]
  constructor
  · split <;> omega
  · intro h
    split <;> omega

variable {port : PagingPort}

theorem IsPort.lowest_lt (hport : IsPort port) : port.lowest.1 < 2 ^ 31 := by
  cases hport with
  | x86 => decide
  | aarch64 => decide
  | riscv64 => decide
  | loongarch64 => exact (by decide : (0 : Int) < 2 ^ 31)

theorem narrowed_le (hport : IsPort port) (n : Nat) : narrowed port n ≤ port.lowest.1 + n := by
  have hle := (toInt_le (port.limineToVmm n)).1
  unfold narrowed
  cases hport with
  | x86 => simpa [PagingPort.x86] using hle
  | aarch64 => simpa [PagingPort.aarch64] using hle
  | riscv64 =>
    simp only [PagingPort.riscv64] at hle ⊢
    omega
  | loongarch64 => simpa [PagingPort.loongarch64] using hle

theorem narrowed_eq (hport : IsPort port) {n : Nat} (h : port.lowest.1 + n < 2 ^ 31) :
    narrowed port n = port.lowest.1 + n := by
  have heq := (toInt_le (port.limineToVmm n)).2
  unfold narrowed
  cases hport with
  | x86 =>
    simp only [PagingPort.x86, id] at h heq ⊢
    omega
  | aarch64 =>
    simp only [PagingPort.aarch64, id] at h heq ⊢
    omega
  | riscv64 =>
    simp only [PagingPort.riscv64] at h heq ⊢
    omega
  | loongarch64 =>
    simp only [PagingPort.loongarch64, id] at h heq ⊢
    omega

/-! ## The negotiation -/

variable {supported : SupportedModes port} {userMin userMax : Int} {request : PagingModeRequest}

theorem kernModes_eq (hport : IsPort port) :
    kernModes port request = (narrowed port request.lowest, narrowed port request.highest) := by
  unfold kernModes PagingModeRequest.lowest PagingModeRequest.highest
  cases request.hasRev1 with
  | true => rfl
  | false =>
    have hlowest : narrowed port 0 = port.lowest.1 := by
      have hlt := hport.lowest_lt
      rw [narrowed_eq hport (by omega)]
      exact Int.add_zero _
    simp only [Bool.false_eq_true, if_false, hlowest]
    rfl

/-- The lower of two modes is taken, if it is no lower than `bottom`. -/
theorem lowered_cases (stop : Stop) (bound bottom mode : Int) {run : Exec Int}
    (hrun : run = if bound < mode then if bound < bottom then .error stop else .ok bound else .ok mode) :
    (run = .error stop ∧ bound < bottom ∧ bound < mode) ∨
      run = .ok (min bound mode) ∧ (bottom ≤ bound ∨ mode ≤ bound) := by
  by_cases h1 : bound < mode
  · rw [if_pos h1] at hrun
    by_cases h2 : bound < bottom
    · exact .inl ⟨hrun.trans (if_pos h2), h2, h1⟩
    · exact .inr ⟨by rw [hrun, if_neg h2, Int.min_eq_left (by omega)], .inl (by omega)⟩
  · exact .inr ⟨by rw [hrun, if_neg h1, Int.min_eq_right (by omega)], .inr (by omega)⟩

/-- The higher one is taken, if it is no higher than `top`. -/
theorem raised_cases (stop : Stop) (bound mode top : Int) {run : Exec Int}
    (hrun : run = if mode < bound then if top < bound then .error stop else .ok bound else .ok mode) :
    (run = .error stop ∧ top < bound ∧ mode < bound) ∨
      run = .ok (max bound mode) ∧ (bound ≤ top ∨ bound ≤ mode) := by
  by_cases h1 : mode < bound
  · rw [if_pos h1] at hrun
    by_cases h2 : top < bound
    · exact .inl ⟨hrun.trans (if_pos h2), h2, h1⟩
    · exact .inr ⟨by rw [hrun, if_neg h2, Int.max_eq_left (by omega)], .inl (by omega)⟩
  · exact .inr ⟨by rw [hrun, if_neg h1, Int.max_eq_right (by omega)], .inr (by omega)⟩

/-- The mode asked for, brought into the range and then within the executable's limits. -/
theorem requestedMode_cases (hport : IsPort port) (request : PagingModeRequest) {lo hi : Int} (hle : lo ≤ hi) :
    (∃ stop, requestedMode port request lo hi = .error stop ∧
      ∀ m, lo ≤ m → m ≤ hi → narrowed port request.lowest ≤ m → narrowed port request.highest < m) ∨
    ∃ m, requestedMode port request lo hi = .ok m ∧ lo ≤ m ∧ m ≤ hi ∧
      narrowed port request.lowest ≤ m ∧ m ≤ narrowed port request.highest ∧
      (m ≤ narrowed port request.mode ∨ m ≤ lo ∨ m ≤ narrowed port request.lowest) ∧
      (narrowed port request.mode ≤ m ∨ hi ≤ m ∨ narrowed port request.highest ≤ m) := by
  have hmode : toInt (port.limineToVmm request.mode) = narrowed port request.mode := rfl
  simp only [requestedMode, kernModes_eq hport, hmode]
  generalize narrowed port request.mode = target, narrowed port request.lowest = kernMin,
    narrowed port request.highest = kernMax
  by_cases hkern : kernMax < kernMin
  · rw [if_pos hkern]
    exact .inl ⟨_, rfl, fun m _ _ hm => by omega⟩
  rw [if_neg hkern]
  obtain ⟨mode, hmode, hlo, hhi, hbelow, habove⟩ : ∃ mode, (if (if hi < target then hi else target) < lo then lo
      else if hi < target then hi else target) = mode ∧ lo ≤ mode ∧ mode ≤ hi ∧
        (mode ≤ target ∨ mode ≤ lo) ∧ (target ≤ mode ∨ hi ≤ mode) := by
    refine ⟨_, rfl, ?_⟩
    split <;> split <;> omega
  rw [hmode]
  rcases lowered_cases _ kernMax lo mode (capMode.eq_def mode kernMax lo) with ⟨hcap, h1, h2⟩ | ⟨hcap, h1⟩
  · exact .inl ⟨_, by rw [hcap]; rfl, fun m hm _ _ => by omega⟩
  · rcases raised_cases _ kernMin (min kernMax mode) hi (floorMode.eq_def (min kernMax mode) kernMin hi) with
      ⟨hfloor, h2, h3⟩ | ⟨hfloor, h2⟩
    · exact .inl ⟨_, by rw [hcap]; exact hfloor, fun m _ hm _ => by omega⟩
    · exact .inr ⟨_, by rw [hcap]; exact hfloor, by omega, by omega, by omega, by omega, by omega, by omega⟩

/-- What the code does, in terms of the numbers as `int`s. -/
theorem negotiatedMode_cases (hport : IsPort port) (supported : SupportedModes port) (userMin userMax : Int)
    (request : PagingModeRequest) :
    (∃ stop, negotiatedMode port supported userMin userMax request = .error stop ∧
      ∀ m, Offered port supported userMin userMax m → narrowed port request.lowest ≤ m →
        narrowed port request.highest < m) ∨
    ∃ m, negotiatedMode port supported userMin userMax request = .ok m ∧
      Offered port supported userMin userMax m ∧ narrowed port request.lowest ≤ m ∧
      m ≤ narrowed port request.highest ∧
      (m ≤ narrowed port request.mode ∨ m ≤ max userMin supported.min ∨ m ≤ narrowed port request.lowest) ∧
      (narrowed port request.mode ≤ m ∨ min userMax supported.max ≤ m ∨
        narrowed port request.highest ≤ m) := by
  have hrange := supported.min_le
  unfold negotiatedMode
  by_cases huser : userMax < userMin
  · rw [if_pos huser]
    exact .inl ⟨_, rfl, fun m ⟨_, _, h1, h2⟩ _ => by omega⟩
  rw [if_neg huser]
  rcases lowered_cases _ userMax supported.min supported.max (limitMax.eq_def _ _ _) with
    ⟨hmax, h1, h2⟩ | ⟨hmax, h1⟩
  · exact .inl ⟨_, by rw [hmax]; rfl, fun m ⟨h3, _, _, h4⟩ _ => by omega⟩
  rcases raised_cases _ userMin supported.min (min userMax supported.max) (limitMin.eq_def _ _ _) with
    ⟨hmin, h2, h3⟩ | ⟨hmin, h2⟩
  · refine .inl ⟨.panic "limine: User set MIN_PAGING_MODE greater than maximum supported paging mode", ?_,
      fun m ⟨_, h4, h5, h6⟩ _ => by omega⟩
    rw [hmax]
    show (limitMin userMin supported.min (min userMax supported.max) >>= _) = _
    rw [hmin]
    rfl
  have hrun : (do
      let maxSupported ← limitMax userMax supported.min supported.max
      let minSupported ← limitMin userMin supported.min maxSupported
      requestedMode port request minSupported maxSupported) =
        requestedMode port request (max userMin supported.min) (min userMax supported.max) := by
    rw [hmax]
    show (limitMin userMin supported.min (min userMax supported.max) >>= _) = _
    rw [hmin]
    rfl
  rw [hrun]
  rcases requestedMode_cases hport request
      (by omega : max userMin supported.min ≤ min userMax supported.max) with
    ⟨stop, herr, hnone⟩ | ⟨m, hok, hlo, hhi, hmin, hmax, hbelow, habove⟩
  · exact .inl ⟨stop, herr, fun m ⟨h3, h4, h5, h6⟩ hm => hnone m (by omega) (by omega) hm⟩
  · exact .inr ⟨m, hok, ⟨by omega, by omega, by omega, by omega⟩, hmin, hmax, hbelow, habove⟩

/-! ## When the request gets what it asks for -/

theorem allowed_iff {m : Int} : Allowed port supported userMin userMax request m ↔
    Offered port supported userMin userMax m ∧ port.lowest.1 + request.lowest ≤ m ∧
      m ≤ port.lowest.1 + request.highest := by
  constructor
  · rintro ⟨hoffered, hlow, hhigh⟩
    simp only [requestNumber] at hlow hhigh
    exact ⟨hoffered, by omega, by omega⟩
  · rintro ⟨hoffered, hlow, hhigh⟩
    exact ⟨hoffered, by simp only [requestNumber]; omega, by simp only [requestNumber]; omega⟩

theorem allowed_iff_between {m : Int} : Allowed port supported userMin userMax request m ↔
    max (max supported.min userMin) (port.lowest.1 + request.lowest) ≤ m ∧
      m ≤ min (min supported.max userMax) (port.lowest.1 + request.highest) := by
  rw [allowed_iff, Int.max_le, Int.max_le, Int.le_min, Int.le_min]
  exact ⟨fun ⟨⟨h1, h2, h3, h4⟩, h5, h6⟩ => ⟨⟨⟨h1, h3⟩, h5⟩, ⟨h2, h4⟩, h6⟩,
    fun ⟨⟨⟨h1, h3⟩, h5⟩, ⟨h2, h4⟩, h6⟩ => ⟨⟨h1, h2, h3, h4⟩, h5, h6⟩⟩

/-- What lies between two limits is no closer to `t` than `t` moved between them. -/
theorem clamp_closest (t : Int) {lo hi m : Int} (hlo : lo ≤ m) (hhi : m ≤ hi) :
    lo ≤ max lo (min t hi) ∧ max lo (min t hi) ≤ hi ∧ (max lo (min t hi) - t).natAbs ≤ (m - t).natAbs := by
  omega

/-- Of the modes allowed, one is the closest. -/
theorem exists_closest (h : ∃ m, Allowed port supported userMin userMax request m) :
    ∃ m, Closest port supported userMin userMax request m := by
  obtain ⟨m₀, hm₀⟩ := h
  obtain ⟨hlo, hhi⟩ := allowed_iff_between.mp hm₀
  obtain ⟨hle, hge, -⟩ := clamp_closest (port.lowest.1 + request.mode) hlo hhi
  refine ⟨_, allowed_iff_between.mpr ⟨hle, hge⟩, fun m hm => ?_⟩
  obtain ⟨hlo', hhi'⟩ := allowed_iff_between.mp hm
  unfold distance requestNumber
  rw [Int.sub_sub, Int.sub_sub]
  exact (clamp_closest _ hlo' hhi').2.2

/-- There is one closest mode: between two of the same distance lies the one asked for. -/
theorem Closest.unique {e m : Int} (he : Closest port supported userMin userMax request e)
    (hm : Closest port supported userMin userMax request m) : e = m := by
  obtain ⟨⟨h1, h2, h3, h4⟩, h5, h6⟩ := allowed_iff.mp he.toAllowed
  obtain ⟨⟨h1', h2', h3', h4'⟩, h5', h6'⟩ := allowed_iff.mp hm.toAllowed
  have hem := he.closest m hm.toAllowed
  have hme := hm.closest e he.toAllowed
  simp only [distance, requestNumber] at hem hme
  by_contra hne
  have hasked : Allowed port supported userMin userMax request (port.lowest.1 + request.mode) :=
    allowed_iff.mpr ⟨⟨by omega, by omega, by omega, by omega⟩, by omega, by omega⟩
  have := he.closest _ hasked
  simp only [distance, requestNumber] at this
  omega

theorem negotiatedMode_selects_iff (hport : IsPort port) (supported : SupportedModes port)
    (userMin userMax : Int) (request : PagingModeRequest) :
    Selects port supported userMin userMax request (negotiatedMode port supported userMin userMax request) ↔
      NarrowsWell port supported userMin userMax request := by
  have hlow := narrowed_le hport request.lowest
  have hhigh := narrowed_le hport request.highest
  have hmode := narrowed_le hport request.mode
  have hmax := supported.max_lt
  -- an allowed lower limit is as it was
  have hexact : ∀ m, Allowed port supported userMin userMax request m →
      narrowed port request.lowest = port.lowest.1 + request.lowest := by
    intro m hm
    obtain ⟨⟨-, h, -, -⟩, hle, -⟩ := allowed_iff.mp hm
    exact narrowed_eq hport (by omega)
  rcases negotiatedMode_cases hport supported userMin userMax request with
    ⟨stop, hrun, hnone⟩ | ⟨e, hrun, hoffered, hmin, hmax, hbelow, habove⟩
  · rw [hrun]
    constructor
    · intro h
      have hno : ¬ ∃ m, Allowed port supported userMin userMax request m := by
        rcases h with h | h
        · exact h
        · rintro ⟨m, hm⟩
          obtain ⟨-, h1, h2⟩ := allowed_iff.mp hm
          omega
      exact ⟨fun m hm => absurd ⟨m, hm.toAllowed⟩ hno, fun m hm h1 h2 => absurd (hnone m hm h1) (by omega)⟩
    · intro h
      refine .inl fun hsome => ?_
      obtain ⟨m, hm⟩ := exists_closest hsome
      obtain ⟨hoffered, h1, -⟩ := allowed_iff.mp hm.toAllowed
      exact absurd (hnone m hoffered (by omega)) (by have := (h.chosen m hm).1; omega)
  · rw [hrun]
    have hallowed (he : narrowed port request.lowest = port.lowest.1 + request.lowest) :
        Allowed port supported userMin userMax request e := allowed_iff.mpr ⟨hoffered, by omega, by omega⟩
    constructor
    · intro h
      refine ⟨fun m hm => ?_, fun _ _ _ _ => ⟨e, h.toAllowed⟩⟩
      obtain rfl := h.unique hm
      refine ⟨hmax, hbelow.imp_right fun hbelow m' hm' => ?_⟩
      obtain ⟨⟨h1, -, h3, -⟩, h5, -⟩ := allowed_iff.mp hm'
      omega
    · intro h
      obtain ⟨m, hm⟩ := exists_closest (h.refused e hoffered hmin hmax)
      obtain ⟨⟨h1, h2, h3, h4⟩, h5, h6⟩ := allowed_iff.mp hm.toAllowed
      obtain ⟨hle, hleast⟩ := h.chosen m hm
      have he := hallowed (hexact m hm.toAllowed)
      have hexact := hexact m hm.toAllowed
      have hsame : e = m := by
        rcases Int.lt_trichotomy e m with hlt | heq | hgt
        · rcases hleast with hleast | hleast
          · omega
          · exact absurd (hleast e he) (by omega)
        · exact heq
        · have hlast : e ≤ port.lowest.1 + request.mode := by
            rcases hbelow with hbelow | hbelow | hbelow
            · exact Int.le_trans hbelow hmode
            · omega
            · omega
          -- between the closest mode and the one asked for
          have hcloser := hm.closest e he
          simp only [distance, requestNumber] at hcloser
          clear hbelow habove
          omega
      rw [hsame]
      exact hm

/-- Numbers below 2^31, the port's lowest mode counted in, are what they were. -/
theorem narrowsWell_of_lt (hport : IsPort port) (supported : SupportedModes port) (userMin userMax : Int)
    {request : PagingModeRequest} (hmode : port.lowest.1 + request.mode < 2 ^ 31)
    (hlowest : port.lowest.1 + request.lowest < 2 ^ 31) (hhighest : port.lowest.1 + request.highest < 2 ^ 31) :
    NarrowsWell port supported userMin userMax request := by
  have hlow := narrowed_eq hport hlowest
  have hhigh := narrowed_eq hport hhighest
  have htarget := narrowed_eq hport hmode
  refine ⟨fun m hm => ?_, fun m hm h1 h2 => ⟨m, allowed_iff.mpr ⟨hm, by omega, by omega⟩⟩⟩
  obtain ⟨hoffered, h1, h2⟩ := allowed_iff.mp hm.toAllowed
  refine ⟨by omega, ?_⟩
  by_cases hle : m ≤ port.lowest.1 + request.mode
  · exact .inl (by omega)
  · right
    intro m' hm'
    by_contra hlt
    -- a lower mode that is allowed, or else the one asked for, would be closer
    obtain ⟨⟨h3, h4, h5, h6⟩, h7, h8⟩ := allowed_iff.mp hm'
    obtain ⟨h9, h10, h11, h12⟩ := hoffered
    have hbetween : Allowed port supported userMin userMax request (max m' (port.lowest.1 + request.mode)) :=
      allowed_iff.mpr ⟨⟨by omega, by omega, by omega, by omega⟩, by omega, by omega⟩
    have hcloser := hm.closest _ hbetween
    simp only [distance, requestNumber] at hcloser
    omega

def x86Lvl4Or5 : SupportedModes .x86 := ⟨0, 1, by decide, by decide, by decide⟩

/-- Five levels are asked for, four would do. -/
theorem negotiatedMode_selects_iff_lvl5 :
    Selects .x86 x86Lvl4Or5 0 1 ⟨1, 0, 1, true⟩ (negotiatedMode .x86 x86Lvl4Or5 0 1 ⟨1, 0, 1, true⟩) :=
  (negotiatedMode_selects_iff .x86 x86Lvl4Or5 0 1 ⟨1, 0, 1, true⟩).mpr
    (narrowsWell_of_lt .x86 x86Lvl4Or5 0 1 (by decide) (by decide) (by decide))

/-- The highest limit there is refuses every mode, and a lower one that no mode reaches is let pass. -/
theorem negotiatedMode_narrows :
    ¬ Selects .x86 x86Lvl4Or5 0 1 ⟨0, 0, 2 ^ 64 - 1, true⟩
        (negotiatedMode .x86 x86Lvl4Or5 0 1 ⟨0, 0, 2 ^ 64 - 1, true⟩) ∧
    ¬ Selects .x86 x86Lvl4Or5 0 1 ⟨0, 2 ^ 32, 2 ^ 32 + 1, true⟩
        (negotiatedMode .x86 x86Lvl4Or5 0 1 ⟨0, 2 ^ 32, 2 ^ 32 + 1, true⟩) := by
  constructor
  · intro h
    have hrun : negotiatedMode .x86 x86Lvl4Or5 0 1 ⟨0, 0, 2 ^ 64 - 1, true⟩ =
        .error (.panic "limine: Executable's paging max_mode lower than min_mode") := by decide
    rw [hrun] at h
    have hfour : Allowed .x86 x86Lvl4Or5 0 1 ⟨0, 0, 2 ^ 64 - 1, true⟩ 0 :=
      ⟨⟨by decide, by decide, by decide, by decide⟩, by decide, by decide⟩
    rcases h with h | h
    · exact h ⟨0, hfour⟩
    · exact absurd h (by decide)
  · intro h
    have hrun : negotiatedMode .x86 x86Lvl4Or5 0 1 ⟨0, 2 ^ 32, 2 ^ 32 + 1, true⟩ = .ok 0 := by decide
    rw [hrun] at h
    exact absurd h.request_le (by decide)

end Limine.Protos.PagingPort
