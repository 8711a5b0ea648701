import Limine.Lib.ByteMemory
import Limine.Lib.FirstMatch

/-!
# Volumes by device path

`device_paths_match_disk` and `volume_by_device_path` of `disk.s2.c` over memory as bytes.  A device path
is given by the address of its first node; the fuel counts nodes.
-/

namespace Limine.Drivers

open Lib

def MEDIA_DEVICE_PATH : UInt8 := 4
def MEDIA_HARDDRIVE_DP : UInt8 := 1
def MEDIA_CDROM_DP : UInt8 := 2

/-- `sizeof(EFI_DEVICE_PATH_PROTOCOL)` -/
def HEADER_SIZE : Nat := 4

/-- "UEFI spec size is 42 bytes" -/
def HARDDRIVE_SIZE : Nat := 42

/-- `sizeof(CDROM_DEVICE_PATH)` -/
def CDROM_SIZE : Nat := 24

/-- What is read of the firmware: its memory, and the device path that `HandleProtocol` has for a handle. -/
structure Efi (Handle : Type) where
  mem : ByteMemory
  handleProtocol : Handle → Option Nat
  /-- the test of `IsDevicePathEnd`, on the type and the subtype of a node -/
  isEnd : UInt8 → UInt8 → Bool

/-- The fields of `struct volume` that the search reads. -/
structure Volume (Handle : Type) where
  efiHandle : Handle
  partition : Int
  sectorSize : Nat
  /-- in sectors of 512 bytes -/
  firstSect : UInt64
  /-- `disk_create_index` passes over the drives whose `BlockSize` is 0 -/
  sectorSize_pos : 0 < sectorSize

variable {Handle : Type} (efi : Efi Handle)

namespace Efi

/-- 0 is `NULL` -/
def getDevicePath (handle : Handle) : Nat := (efi.handleProtocol handle).getD 0

def type (dp : Nat) : UInt8 := efi.mem dp

def subType (dp : Nat) : UInt8 := efi.mem (dp + 1)

def devicePathNodeLength (dp : Nat) : Nat := leAt efi.mem (dp + 2) 2

def isDevicePathEnd (dp : Nat) : Bool := efi.isEnd (efi.type dp) (efi.subType dp)

def isHarddrive (dp : Nat) : Bool := efi.type dp == MEDIA_DEVICE_PATH && efi.subType dp == MEDIA_HARDDRIVE_DP

def isCdrom (dp : Nat) : Bool := efi.type dp == MEDIA_DEVICE_PATH && efi.subType dp == MEDIA_CDROM_DP

/-- The same offset in `HARDDRIVE_DEVICE_PATH` and in `CDROM_DEVICE_PATH`. -/
def partitionStart (dp : Nat) : Nat := leAt efi.mem (dp + 8) 8

/-- The loop of `device_paths_match_disk`. -/
def matchLoop : Nat → Nat → Nat → Option Bool
  | 0, _, _ => none
  | fuel + 1, dp1, dp2 =>
    if efi.isDevicePathEnd dp1 || efi.isDevicePathEnd dp2 then some true
    else if efi.isHarddrive dp1 || efi.isCdrom dp1 then some true
    else if efi.isHarddrive dp2 || efi.isCdrom dp2 then some true
    else
      let len1 := efi.devicePathNodeLength dp1
      let len2 := efi.devicePathNodeLength dp2
      if len1 ≠ len2 then some false
      else if len1 < HEADER_SIZE then some false
      else if efi.mem.bytes dp1 len1 ≠ efi.mem.bytes dp2 len1 then some false
      else matchLoop fuel (dp1 + len1) (dp2 + len2)

def devicePathsMatchDisk (fuel dp1 dp2 : Nat) : Option Bool :=
  if dp1 = 0 ∨ dp2 = 0 then some false else efi.matchLoop fuel dp1 dp2

/-- The walk over the query's path: where it ends, and whether it found the volume's first LBA. -/
def walkQuery (firstSectLba : Nat) : Nat → Nat → Option (Bool × Nat)
  | 0, _ => none
  | fuel + 1, qp =>
    if efi.isDevicePathEnd qp then some (false, qp)
    else if efi.isHarddrive qp then
      if efi.devicePathNodeLength qp < HARDDRIVE_SIZE then some (false, qp)
      else some (firstSectLba == efi.partitionStart qp, qp)
    else if efi.isCdrom qp then
      if efi.devicePathNodeLength qp < CDROM_SIZE then some (false, qp)
      else some (firstSectLba == efi.partitionStart qp, qp)
    else if efi.devicePathNodeLength qp < HEADER_SIZE then some (false, qp)
    else walkQuery firstSectLba fuel (qp + efi.devicePathNodeLength qp)

/-- One turn of the loop over `volume_index`: whether it returns the volume. -/
def volumeTaken (fuel queryDp : Nat) (v : Volume Handle) : Option Bool :=
  let volDp := efi.getDevicePath v.efiHandle
  if volDp = 0 then some false
  else do
    if ← efi.devicePathsMatchDisk fuel queryDp volDp then
      let start := (v.firstSect * 512).toNat
      if start % v.sectorSize ≠ 0 then return false
      else
        let (found, qp) ← efi.walkQuery (start / v.sectorSize) fuel queryDp
        return found || (efi.isDevicePathEnd qp && v.partition == 0)
    else return false

def volumeLoop (fuel queryDp : Nat) : List (Volume Handle) → Option (Option (Volume Handle))
  | [] => some none
  | v :: vs => do
    if ← efi.volumeTaken fuel queryDp v then return some v
    else volumeLoop fuel queryDp vs

def volumeByDevicePath (fuel : Nat) (volumeIndex : List (Volume Handle)) (queryHandle : Handle) :
    Option (Option (Volume Handle)) :=
  let queryDp := efi.getDevicePath queryHandle
  if queryDp = 0 then some none else efi.volumeLoop fuel queryDp volumeIndex

end Efi

/-!
## Which volumes the device path search finds

A device path as the list of its nodes.  `device_paths_match_disk` stops where either path ends or comes
to a partition node, so it takes two disks for one where the path of one goes on from the path of the
other (`matchLoop_eq`); the first LBA is compared modulo 2^64 bytes.  The search finds the volume meant
when nothing of that kind stands in its way (`volumeByDevicePath_finds_iff`).
-/

/-! ## Paths -/

structure Node where
  bytes : List UInt8
  header_le : HEADER_SIZE ≤ bytes.length
  length_eq : leNat ((bytes.drop 2).take 2) = bytes.length
deriving DecidableEq

/-- The nodes before the end node. -/
abbrev Path := List Node

namespace Node

variable (n : Node)

def type : UInt8 := n.bytes.getD 0 0

def subType : UInt8 := n.bytes.getD 1 0

def isHarddrive : Bool := n.type == MEDIA_DEVICE_PATH && n.subType == MEDIA_HARDDRIVE_DP

def isCdrom : Bool := n.type == MEDIA_DEVICE_PATH && n.subType == MEDIA_CDROM_DP

def isPartition : Bool := n.isHarddrive || n.isCdrom

/-- Long enough to have the fields of its kind. -/
def isLong : Bool := decide ((if n.isHarddrive then HARDDRIVE_SIZE else CDROM_SIZE) ≤ n.bytes.length)

def partitionStart : Nat := leNat ((n.bytes.drop 8).take 8)

end Node

/-- The path of the disk. -/
def diskPath (p : Path) : Path := p.takeWhile fun n => !n.isPartition

def partitionNode (p : Path) : Option Node := p.find? Node.isPartition

variable {Handle : Type}

/-- The path lies in memory at `dp`, closed by an end node. -/
def PathAt (efi : Efi Handle) : Nat → Path → Prop
  | dp, [] => efi.isDevicePathEnd dp = true
  | dp, n :: ns =>
    efi.isDevicePathEnd dp = false ∧ efi.mem.bytes dp n.bytes.length = n.bytes ∧
      PathAt efi (dp + n.bytes.length) ns

/-- The handle has a device path. -/
def HasPath (efi : Efi Handle) (handle : Handle) (p : Path) : Prop :=
  ∃ dp, dp ≠ 0 ∧ efi.handleProtocol handle = some dp ∧ PathAt efi dp p

instance (efi : Efi Handle) : ∀ dp p, Decidable (PathAt efi dp p)
  | _, [] => inferInstanceAs (Decidable (_ = true))
  | dp, n :: ns =>
    have := instDecidablePathAt efi (dp + n.bytes.length) ns
    inferInstanceAs (Decidable (_ ∧ _ ∧ _))

/-! ## What the search is for -/

/-- The byte that the volume starts at. -/
def Volume.start (v : Volume Handle) : Nat := v.firstSect.toNat * 512

/-- `p` leads to `v`, whose handle has the path `q`. -/
def Names (p q : Path) (v : Volume Handle) : Prop :=
  diskPath p = diskPath q ∧ match partitionNode p with
    | some n => n.partitionStart * v.sectorSize = v.start
    | none => v.partition = 0

/-- A volume that must not be missed: aligned, and named by a node that is long enough. -/
def Due (p q : Path) (v : Volume Handle) : Prop :=
  Names p q v ∧ v.sectorSize ∣ v.start ∧ ∀ n, partitionNode p = some n → n.isLong = true

/-- What `volume_by_device_path` is for, as to what it returns. -/
structure Finds (path : Handle → Path) (query : Handle) (volumes : List (Volume Handle))
    (result : Option (Volume Handle)) : Prop where
  names : ∀ v, result = some v → v ∈ volumes ∧ Names (path query) (path v.efiHandle) v
  due : ∀ v ∈ volumes, Due (path query) (path v.efiHandle) v → result ≠ none

/-- The test of the code as to where the volume starts: `start` is a byte. -/
def StartsAt (p : Path) (v : Volume Handle) (start : Nat) : Prop :=
  v.sectorSize ∣ start ∧ match partitionNode p with
    | some n => n.isLong = true ∧ n.partitionStart * v.sectorSize = start
    | none => v.partition = 0

/-- `p` leads to `v`, and the start of `v` is not too large for 64 bits where `p` says it. -/
structure Meant (p q : Path) (v : Volume Handle) : Prop where
  disk : diskPath p = diskPath q
  start : StartsAt p v (v.start % 2 ^ 64)
  fits : partitionNode p ≠ none → v.start < 2 ^ 64

/-- `v` passes for the volume meant: the path of its disk and that of the query's go on from each other, or
its start is only modulo 2^64 the one wanted. -/
structure Misleading (p q : Path) (v : Volume Handle) : Prop where
  disk : Comparable (diskPath p) (diskPath q)
  start : StartsAt p v (v.start % 2 ^ 64)
  other : diskPath p ≠ diskPath q ∨ (partitionNode p ≠ none ∧ 2 ^ 64 ≤ v.start)

/-! ## The nodes as the code reads them -/

section
variable {efi : Efi Handle} {dp : Nat} {n : Node}

theorem mem_of_bytes (h : efi.mem.bytes dp n.bytes.length = n.bytes) {i : Nat} (hi : i < n.bytes.length) :
    efi.mem (dp + i) = n.bytes.getD i 0 := by
  rw [← h, ByteMemory.bytes, List.getD_eq_getElem?_getD, List.getElem?_map, List.getElem?_range hi]
  rfl

theorem type_of_bytes (h : efi.mem.bytes dp n.bytes.length = n.bytes) : efi.type dp = n.type :=
  mem_of_bytes h (i := 0) (by have := n.header_le; simp only [HEADER_SIZE] at this; omega)

theorem subType_of_bytes (h : efi.mem.bytes dp n.bytes.length = n.bytes) : efi.subType dp = n.subType :=
  mem_of_bytes h (i := 1) (by have := n.header_le; simp only [HEADER_SIZE] at this; omega)

theorem isHarddrive_of_bytes (h : efi.mem.bytes dp n.bytes.length = n.bytes) :
    efi.isHarddrive dp = n.isHarddrive := by
  rw [Efi.isHarddrive, type_of_bytes h, subType_of_bytes h, Node.isHarddrive]

theorem isCdrom_of_bytes (h : efi.mem.bytes dp n.bytes.length = n.bytes) :
    efi.isCdrom dp = n.isCdrom := by
  rw [Efi.isCdrom, type_of_bytes h, subType_of_bytes h, Node.isCdrom]

theorem leAt_of_bytes (h : efi.mem.bytes dp n.bytes.length = n.bytes) {off size : Nat}
    (hoff : off + size ≤ n.bytes.length) :
    leAt efi.mem (dp + off) size = leNat ((n.bytes.drop off).take size) := by
  conv_rhs => rw [← h, ByteMemory.bytes_drop_take _ hoff]
  rfl

theorem length_of_bytes (h : efi.mem.bytes dp n.bytes.length = n.bytes) :
    efi.devicePathNodeLength dp = n.bytes.length := by
  rw [Efi.devicePathNodeLength, leAt_of_bytes h (by exact n.header_le), n.length_eq]

end

/-! ## The two walks -/

@[simp] theorem diskPath_nil : diskPath [] = [] := rfl

theorem diskPath_cons (n : Node) (ns : Path) :
    diskPath (n :: ns) = if n.isPartition then [] else n :: diskPath ns := by
  rw [diskPath, List.takeWhile_cons]
  cases n.isPartition <;> rfl

theorem matchLoop_eq {efi : Efi Handle} {fuel dp1 dp2 : Nat} {p q : Path} (hp : PathAt efi dp1 p)
    (hq : PathAt efi dp2 q) (hfuel : p.length < fuel) :
    efi.matchLoop fuel dp1 dp2 = some (decide (Comparable (diskPath p) (diskPath q))) := by
  induction fuel generalizing dp1 dp2 p q with
  | zero => omega
  | succ fuel ih =>
    cases p with
    | nil =>
      have hend : efi.isDevicePathEnd dp1 = true := hp
      simp [Efi.matchLoop, hend]
    | cons n ns =>
      obtain ⟨hend1, hn, hns⟩ := hp
      cases q with
      | nil =>
        have hend : efi.isDevicePathEnd dp2 = true := hq
        simp [Efi.matchLoop, hend]
      | cons m ms =>
        obtain ⟨hend2, hm, hms⟩ := hq
        rw [Efi.matchLoop, hend1, hend2, isHarddrive_of_bytes hn, isCdrom_of_bytes hn,
          isHarddrive_of_bytes hm, isCdrom_of_bytes hm, length_of_bytes hn, length_of_bytes hm,
          ← Node.isPartition, ← Node.isPartition, diskPath_cons, diskPath_cons]
        by_cases h1 : n.isPartition
        · simp [h1]
        · by_cases h2 : m.isPartition
          · simp [h1, h2]
          · have hheader : ¬ n.bytes.length < HEADER_SIZE := Nat.not_lt.mpr n.header_le
            simp only [Bool.or_self, Bool.false_eq_true, if_false, h1, h2, comparable_cons, hheader]
            by_cases hlen : n.bytes.length = m.bytes.length
            · rw [if_neg (not_not.mpr hlen), hn, hlen, hm, ← hlen]
              by_cases heq : n.bytes = m.bytes
              · have hnm : n = m := by
                  cases n
                  cases m
                  cases heq
                  rfl
                subst hnm
                rw [if_neg (not_not.mpr rfl), ih hns hms (by simpa using hfuel)]
                simp
              · have hnm : n ≠ m := fun h => heq (congrArg Node.bytes h)
                simp [heq, hnm]
            · have hnm : n ≠ m := fun h => hlen (congrArg (fun n => n.bytes.length) h)
              simp [hlen, hnm]

/-- Whether the query's partition node, long enough, has this first LBA. -/
def atLba (p : Path) (lba : Nat) : Bool :=
  match partitionNode p with
  | some n => n.isLong && lba == n.partitionStart
  | none => false

/-- The walk ends at the end node exactly where there is no partition node. -/
theorem walkQuery_eq {efi : Efi Handle} (lba : Nat) {fuel dp : Nat} {p : Path} (hp : PathAt efi dp p)
    (hfuel : p.length < fuel) :
    ∃ qp, efi.walkQuery lba fuel dp = some (atLba p lba, qp) ∧
      efi.isDevicePathEnd qp = (partitionNode p).isNone := by
  induction fuel generalizing dp p with
  | zero => omega
  | succ fuel ih =>
    cases p with
    | nil =>
      have hend : efi.isDevicePathEnd dp = true := hp
      exact ⟨dp, by simp [Efi.walkQuery, hend, atLba, partitionNode], hend⟩
    | cons n ns =>
      obtain ⟨hend, hn, hns⟩ := hp
      have hstart (h : 16 ≤ n.bytes.length) : efi.partitionStart dp = n.partitionStart := leAt_of_bytes hn h
      rw [Efi.walkQuery, hend, isHarddrive_of_bytes hn, isCdrom_of_bytes hn, length_of_bytes hn]
      by_cases hpart : n.isPartition
      · -- the node that ends the disk's path
        have hnode : partitionNode (n :: ns) = some n := List.find?_cons_of_pos hpart
        refine ⟨dp, ?_, by rw [hend, hnode]; rfl⟩
        simp only [atLba, hnode, Node.isLong]
        cases hhd : n.isHarddrive with
        | true =>
          by_cases hlen : n.bytes.length < HARDDRIVE_SIZE
          · simp [hlen, Nat.not_le.mpr hlen]
          · rw [hstart (by simp only [HARDDRIVE_SIZE] at hlen; omega)]
            simp [hlen, Nat.not_lt.mp hlen]
        | false =>
          have hcd : n.isCdrom = true := by simpa [Node.isPartition, hhd] using hpart
          by_cases hlen : n.bytes.length < CDROM_SIZE
          · simp [hcd, hlen, Nat.not_le.mpr hlen]
          · rw [hstart (by simp only [CDROM_SIZE] at hlen; omega)]
            simp [hcd, hlen, Nat.not_lt.mp hlen]
      · have hnode : partitionNode (n :: ns) = partitionNode ns := List.find?_cons_of_neg hpart
        have hkind : n.isHarddrive = false ∧ n.isCdrom = false := by
          simpa [Node.isPartition] using hpart
        obtain ⟨qp, hwalk, hqp⟩ := ih (p := ns) hns (by simpa using hfuel)
        refine ⟨qp, ?_, by rw [hqp, hnode]⟩
        rw [hkind.1, hkind.2, if_neg Bool.false_ne_true, if_neg Bool.false_ne_true, if_neg Bool.false_ne_true,
          if_neg (Nat.not_lt.mpr n.header_le), hwalk, atLba, atLba, hnode]

/-! ## The search -/

/-- The volumes that the search takes for `p`, all of its tests together. -/
structure Taken (p q : Path) (v : Volume Handle) : Prop where
  disk : Comparable (diskPath p) (diskPath q)
  start : StartsAt p v (v.start % 2 ^ 64)

section
variable {p q : Path} {v : Volume Handle}

theorem toNat_start : (v.firstSect * 512).toNat = v.start % 2 ^ 64 := UInt64.toNat_mul v.firstSect 512

/-- What the code tests of the volume's start, on the way through the query's path and after it. -/
theorem startsAt_iff {start : Nat} : StartsAt p v start ↔ start % v.sectorSize = 0 ∧
    (atLba p (start / v.sectorSize) || ((partitionNode p).isNone && v.partition == 0)) = true := by
  rw [StartsAt, Nat.dvd_iff_mod_eq_zero]
  refine and_congr_right fun hdvd => ?_
  rw [atLba]
  cases partitionNode p with
  | none => simp
  | some n =>
    have hdiv : start / v.sectorSize = n.partitionStart ↔ n.partitionStart * v.sectorSize = start := by
      rw [Nat.div_eq_iff_eq_mul_left v.sectorSize_pos (Nat.dvd_of_mod_eq_zero hdvd), eq_comm]
    simp [hdiv]

theorem volumeTaken_spec {efi : Efi Handle} {fuel dp : Nat} (hp : PathAt efi dp p) (hdp : dp ≠ 0)
    (hq : HasPath efi v.efiHandle q) (hfuel : p.length < fuel) :
    ∃ b, efi.volumeTaken fuel dp v = some b ∧ (b = true ↔ Taken p q v) := by
  obtain ⟨volDp, hvolDp, hhandle, hq⟩ := hq
  obtain ⟨qp, hwalk, hqp⟩ := walkQuery_eq ((v.start % 2 ^ 64) / v.sectorSize) hp hfuel
  have hget : efi.getDevicePath v.efiHandle = volDp := by rw [Efi.getDevicePath, hhandle, Option.getD_some]
  have hmatch : efi.devicePathsMatchDisk fuel dp volDp =
      some (decide (Comparable (diskPath p) (diskPath q))) := by
    rw [Efi.devicePathsMatchDisk, if_neg (by simp [hdp, hvolDp]), matchLoop_eq hp hq hfuel]
  simp only [Efi.volumeTaken, hget, hvolDp, if_false, hmatch, toNat_start, hwalk, hqp, Option.bind_eq_bind,
    Option.bind_some]
  by_cases hdisk : Comparable (diskPath p) (diskPath q)
  · by_cases hmod : v.start % 2 ^ 64 % v.sectorSize = 0
    · refine ⟨_, by simp only [hdisk, decide_true, if_true, hmod, ne_eq, not_true, if_false]; rfl, ?_⟩
      exact ⟨fun h => ⟨hdisk, startsAt_iff.mpr ⟨hmod, h⟩⟩, fun h => (startsAt_iff.mp h.start).2⟩
    · refine ⟨false, by simp only [hdisk, decide_true, if_true, hmod, ne_eq, not_false_eq_true]; rfl, ?_⟩
      exact ⟨fun h => absurd h Bool.false_ne_true, fun h => absurd (startsAt_iff.mp h.start).1 hmod⟩
  · refine ⟨false, by simp [hdisk], ?_⟩
    exact ⟨fun h => absurd h Bool.false_ne_true, fun h => absurd h.disk hdisk⟩

open scoped Classical in
/-- The search finds the first volume that is taken. -/
theorem volumeByDevicePath_eq {efi : Efi Handle} {path : Handle → Path} {query : Handle} {fuel : Nat}
    {volumes : List (Volume Handle)} (hquery : HasPath efi query (path query))
    (hvolumes : ∀ v ∈ volumes, HasPath efi v.efiHandle (path v.efiHandle))
    (hfuel : (path query).length < fuel) : efi.volumeByDevicePath fuel volumes query =
      some (volumes.find? fun v => decide (Taken (path query) (path v.efiHandle) v)) := by
  obtain ⟨dp, hdp, hhandle, hp⟩ := hquery
  have hget : efi.getDevicePath query = dp := by rw [Efi.getDevicePath, hhandle, Option.getD_some]
  rw [Efi.volumeByDevicePath, hget, if_neg hdp]
  induction volumes with
  | nil => rfl
  | cons v vs ih =>
    obtain ⟨b, hb, htaken⟩ := volumeTaken_spec hp hdp (hvolumes v List.mem_cons_self) hfuel
    rw [Efi.volumeLoop, hb, List.find?_cons, ih fun w hw => hvolumes w (List.mem_cons_of_mem v hw)]
    cases b with
    | true => simp [htaken.mp rfl]
    | false => simp [show ¬ Taken (path query) (path v.efiHandle) v from fun h => by simpa using htaken.mpr h]

/-! ## What is taken and what is meant -/

theorem taken_and_names_iff : Taken p q v ∧ Names p q v ↔ Meant p q v := by
  constructor
  · rintro ⟨htaken, hdisk, hstart⟩
    refine ⟨hdisk, htaken.start, fun hsome => ?_⟩
    obtain ⟨n, hn⟩ := Option.ne_none_iff_exists'.mp hsome
    have hwrapped := htaken.start.2
    rw [hn] at hstart hwrapped
    have : v.start % 2 ^ 64 < 2 ^ 64 := Nat.mod_lt _ (Nat.two_pow_pos 64)
    have : v.start % 2 ^ 64 = v.start := by rw [← hwrapped.2, hstart]
    omega
  · rintro ⟨hdisk, hstart, hfits⟩
    refine ⟨⟨hdisk ▸ Comparable.refl _, hstart⟩, hdisk, ?_⟩
    have h := hstart.2
    cases hnode : partitionNode p with
    | none =>
      rw [hnode] at h
      exact h
    | some n =>
      rw [hnode] at h
      rw [← Nat.mod_eq_of_lt (hfits (by simp [hnode]))]
      exact h.2

theorem taken_and_not_names_iff : Taken p q v ∧ ¬ Names p q v ↔ Misleading p q v := by
  constructor
  · rintro ⟨htaken, hnames⟩
    refine ⟨htaken.disk, htaken.start, ?_⟩
    by_contra hother
    rw [not_or, not_not, not_and, not_le] at hother
    exact hnames (taken_and_names_iff.mpr ⟨hother.1, htaken.start, hother.2⟩).2
  · rintro ⟨hdisk, hstart, hother⟩
    refine ⟨⟨hdisk, hstart⟩, fun hnames => ?_⟩
    have hmeant := taken_and_names_iff.mp ⟨⟨hdisk, hstart⟩, hnames⟩
    rcases hother with hother | ⟨hsome, hle⟩
    · exact hother hmeant.disk
    · exact absurd (hmeant.fits hsome) (Nat.not_lt.mpr hle)

theorem Due.meant (h : Due p q v) (hlt : v.start < 2 ^ 64) : Meant p q v := by
  obtain ⟨⟨hdisk, hstart⟩, hdvd, hlong⟩ := h
  refine ⟨hdisk, ?_, fun _ => hlt⟩
  rw [Nat.mod_eq_of_lt hlt]
  refine ⟨hdvd, ?_⟩
  cases hnode : partitionNode p with
  | none =>
    rw [hnode] at hstart
    exact hstart
  | some n =>
    rw [hnode] at hstart
    exact ⟨hlong n hnode, hstart⟩

end

/-- What keeps the search from going wrong: a misleading volume stands after one that is meant, and if a
volume from byte 2^64 on is due, then there is one that is meant. -/
structure Unmistaken (path : Handle → Path) (query : Handle) (volumes : List (Volume Handle)) : Prop where
  after : ∀ before v rest, volumes = before ++ v :: rest → Misleading (path query) (path v.efiHandle) v →
    ∃ w ∈ before, Meant (path query) (path w.efiHandle) w
  large : ∀ v ∈ volumes, Due (path query) (path v.efiHandle) v → 2 ^ 64 ≤ v.start →
    ∃ w ∈ volumes, Meant (path query) (path w.efiHandle) w

open scoped Classical in
theorem volumeByDevicePath_finds_iff (efi : Efi Handle) (path : Handle → Path) (query : Handle)
    (volumes : List (Volume Handle)) (fuel : Nat) (hquery : HasPath efi query (path query))
    (hvolumes : ∀ v ∈ volumes, HasPath efi v.efiHandle (path v.efiHandle))
    (hfuel : (path query).length < fuel) :
    (∃ result, efi.volumeByDevicePath fuel volumes query = some result ∧ Finds path query volumes result) ↔
      Unmistaken path query volumes := by
  have hpreceded : (∀ v, volumes.find? (fun v => decide (Taken (path query) (path v.efiHandle) v)) = some v →
      Names (path query) (path v.efiHandle) v) ↔ _ := find?_meant_iff
  simp only [volumeByDevicePath_eq hquery hvolumes hfuel, Option.some.injEq, exists_eq_left']
  constructor
  · intro h
    have hfirst := hpreceded.mp fun v hv => (h.names v hv).2
    refine ⟨fun before v rest hl hv => ?_, fun v hv hdue _ => ?_⟩
    · obtain ⟨htaken, hnames⟩ := taken_and_not_names_iff.mpr hv
      obtain ⟨w, hw, htaken', hnames'⟩ := hfirst before v rest hl (by simpa using htaken) hnames
      exact ⟨w, hw, taken_and_names_iff.mp ⟨by simpa using htaken', hnames'⟩⟩
    · obtain ⟨w, hw⟩ := Option.ne_none_iff_exists'.mp (h.due v hv hdue)
      obtain ⟨hmem, hnames⟩ := h.names w hw
      exact ⟨w, hmem, taken_and_names_iff.mp ⟨by simpa using List.find?_some hw, hnames⟩⟩
  · intro h
    refine ⟨fun v hv => ⟨List.mem_of_find?_eq_some hv, hpreceded.mpr ?_ v hv⟩, fun v hv hdue hnone => ?_⟩
    · intro before w rest hl htaken hnames
      obtain ⟨u, hu, hmeant⟩ := h.after before w rest hl
        (taken_and_not_names_iff.mp ⟨by simpa using htaken, hnames⟩)
      obtain ⟨htaken', hnames'⟩ := taken_and_names_iff.mpr hmeant
      exact ⟨u, hu, by simpa using htaken', hnames'⟩
    · obtain ⟨w, hw, hmeant⟩ : ∃ w ∈ volumes, Meant (path query) (path w.efiHandle) w := by
        rcases Nat.lt_or_ge v.start (2 ^ 64) with hlt | hge
        · exact ⟨v, hv, hdue.meant hlt⟩
        · exact h.large v hv hdue hge
      have := List.find?_eq_none.mp hnone w hw
      simp [(taken_and_names_iff.mpr hmeant).1] at this

/-! ## A card reader and its second unit -/

def pci : Node := ⟨[1, 1, 6, 0, 0, 1], by decide, by decide⟩

def unit : Node := ⟨[3, 17, 5, 0, 1], by decide, by decide⟩

def readerPath : Nat → Path
  | 0 => [pci]
  | _ => [pci, unit]

/-- The path of handle 0 at 16, that of the others at 32. -/
def reader : Efi Nat where
  mem a := [1, 1, 6, 0, 0, 1, 0x7f, 0xff, 4, 0, 0, 0, 0, 0, 0, 0,
    1, 1, 6, 0, 0, 1, 3, 17, 5, 0, 1, 0x7f, 0xff, 4, 0].getD (a - 16) 0
  handleProtocol
    | 0 => some 16
    | _ => some 32
  isEnd type subType := type &&& 0x7f == 0x7f && subType == 0xff

def wholeDisk (handle : Nat) : Volume Nat := ⟨handle, 0, 512, 0, by decide⟩

theorem reader_hasPath : ∀ handle, HasPath reader handle (readerPath handle)
  | 0 => ⟨16, by decide, rfl, by decide⟩
  | _ + 1 => ⟨32, by decide, rfl, (by decide : PathAt reader 32 [pci, unit])⟩

theorem volumeByDevicePath_finds_iff_unit : Unmistaken readerPath 1 [wholeDisk 1] :=
  (volumeByDevicePath_finds_iff reader readerPath 1 [wholeDisk 1] 4 (reader_hasPath 1)
    (fun v _ => reader_hasPath v.efiHandle) (by decide)).mp
    ⟨some (wholeDisk 1), rfl, fun v hv => by cases hv; exact ⟨List.mem_singleton_self _, rfl, rfl⟩,
      fun _ _ _ => Option.some_ne_none _⟩

/-- The path of the reader's own disk ends where that of the second unit goes on. -/
theorem volumeByDevicePath_takes_reader : ¬ ∃ result,
    reader.volumeByDevicePath 4 [wholeDisk 0, wholeDisk 1] 1 = some result ∧
      Finds readerPath 1 [wholeDisk 0, wholeDisk 1] result := by
  rintro ⟨result, hresult, hfinds⟩
  have hrun : reader.volumeByDevicePath 4 [wholeDisk 0, wholeDisk 1] 1 = some (some (wholeDisk 0)) := rfl
  rw [hrun] at hresult
  cases hresult
  have hdisk : diskPath (readerPath 1) ≠ diskPath (readerPath 0) := by decide
  exact hdisk (hfinds.names (wholeDisk 0) rfl).2.1

end Limine.Drivers
