import Limine.Part.VolumeRead
import Mathlib.Tactic.Ring

/-!
# `volume_read` and the device

Whatever transfers failed before, the cache is valid only with what the device holds in the
cached block, as far as that lies in the volume (`Cached`).  A call that returns true has put
together its buffer from such blocks.
-/

namespace Limine.Part

open Limine.Loader (checkedMul checkedMul_eq_some_iff)

/-- Bytes of a block. -/
def Volume.blockBytes (v : Volume) : Nat := v.fastestXferSize.toNat * v.sectorSize.toNat

/-- The device byte at `loc` in the volume. -/
def Volume.byteAt (v : Volume) (e : Env) (loc : Nat) : UInt8 := e.device (v.firstSect.toNat * 512 + loc)

/-- Bytes `[loc, loc + count)` lie in the volume, as far as its size is known. -/
def Volume.Holds (v : Volume) (loc count : Nat) : Prop :=
  v.sectCount ≠ unknownCount → loc + count ≤ v.sectCount.toNat * 512

/-- Sectors are whole 512-byte units. -/
structure Volume.SectorOk (v : Volume) : Prop where
  le : 512 ≤ v.sectorSize
  units : v.sectorSize.toNat = v.sectorUnits * 512

/-- A partition ends at a sector number, and only whole disks are of unknown size. -/
structure Volume.Placed (v : Volume) : Prop where
  known : v.sectCount ≠ unknownCount → v.firstSect.toNat + v.sectCount.toNat < 2 ^ 64
  unknown : v.sectCount = unknownCount → v.firstSect = 0

/-- The fields `volume_read` leaves alone. -/
structure Same (v v' : Volume) : Prop where
  fastestXferSize : v'.fastestXferSize = v.fastestXferSize
  pxe : v'.pxe = v.pxe
  sectorSize : v'.sectorSize = v.sectorSize
  firstSect : v'.firstSect = v.firstSect
  sectCount : v'.sectCount = v.sectCount

structure Cached (e : Env) (v : Volume) : Prop where
  ready : v.cacheStatus = .ready → ∃ cache, v.cache = some cache ∧
    ∀ k, k < v.blockBytes → v.Holds (v.cachedBlock * v.blockBytes + k) 1 →
      cache k = v.byteAt e (v.cachedBlock * v.blockBytes + k)
  allocated : v.cache ≠ none → v.blockBytes < 2 ^ e.sizeBits

theorem Volume.SectorOk.of_checks {v : Volume} (hle : ¬ v.sectorSize < 512)
    (hmod : ¬ v.sectorSize % 512 ≠ 0) : v.SectorOk := by
  refine ⟨by omega, ?_⟩
  unfold Volume.sectorUnits
  omega

theorem Volume.SectorOk.units_pos {v : Volume} (h : v.SectorOk) : 0 < v.sectorUnits := by
  have := h.le
  have := h.units
  omega

namespace Same

variable {v v' v'' : Volume}

theorem refl (v : Volume) : Same v v := ⟨rfl, rfl, rfl, rfl, rfl⟩

theorem trans (h : Same v v') (h' : Same v' v'') : Same v v'' :=
  ⟨h'.1.trans h.1, h'.2.trans h.2, h'.3.trans h.3, h'.4.trans h.4, h'.5.trans h.5⟩

theorem blockBytes (h : Same v v') : v'.blockBytes = v.blockBytes := by
  unfold Volume.blockBytes
  rw [h.fastestXferSize, h.sectorSize]

theorem blockSize (h : Same v v') (e : Env) : blockSize e v' = blockSize e v := by
  unfold Part.blockSize
  rw [h.fastestXferSize, h.sectorSize]

theorem sectorUnits (h : Same v v') : v'.sectorUnits = v.sectorUnits := by
  unfold Volume.sectorUnits
  rw [h.sectorSize]

theorem byteAt (h : Same v v') (e : Env) : v'.byteAt e = v.byteAt e := by
  funext loc
  unfold Volume.byteAt
  rw [h.firstSect]

theorem holds (h : Same v v') {loc count : Nat} : v'.Holds loc count ↔ v.Holds loc count := by
  unfold Volume.Holds
  rw [h.sectCount]

theorem blockTransfer (h : Same v v') (block : Nat) :
    blockTransfer v' block = blockTransfer v block := by
  unfold Part.blockTransfer clampXfer
  rw [h.fastestXferSize, h.firstSect, h.sectCount, h.sectorUnits]

theorem sectorOk (h : Same v v') (hs : v.SectorOk) : v'.SectorOk :=
  ⟨by rw [h.sectorSize]; exact hs.le, by rw [h.sectorSize, h.sectorUnits]; exact hs.units⟩

theorem placed (h : Same v v') (hp : v.Placed) : v'.Placed := by
  constructor
  · rw [h.firstSect, h.sectCount]
    exact hp.known
  · rw [h.firstSect, h.sectCount]
    exact hp.unknown

end Same

theorem same_setStatus (s : State) (status : CacheStatus) :
    Same s.volume (s.setStatus status).volume := ⟨rfl, rfl, rfl, rfl, rfl⟩

theorem same_filled (s : State) (cache : Nat → UInt8) :
    Same s.volume (s.setCache cache).tick.volume := ⟨rfl, rfl, rfl, rfl, rfl⟩

/-! ## One block -/

section Block

variable {e : Env} {s s' : State} {v : Volume} {block readSector xferSize : Nat}

theorem allocCache_spec {cache : Nat → UInt8} (h : allocCache e s = .ok (s', cache))
    (hs : s.volume.cache ≠ none → s.volume.blockBytes < 2 ^ e.sizeBits) :
    s'.volume.cache = some cache ∧ Same s.volume s'.volume ∧ s'.time = s.time ∧
      s'.volume.cacheStatus = s.volume.cacheStatus ∧ s.volume.blockBytes < 2 ^ e.sizeBits := by
  unfold allocCache at h
  split at h
  · next c hc =>
    cases h
    exact ⟨hc, Same.refl _, rfl, rfl, hs (by rw [hc]; simp)⟩
  · split at h
    · cases h
    · next size hsize =>
      split at h
      · next ha =>
        cases h
        obtain ⟨-, rfl⟩ := checkedMul_eq_some_iff.mp hsize
        exact ⟨rfl, ⟨rfl, rfl, rfl, rfl, rfl⟩, rfl, rfl, e.canAlloc_lt _ ha⟩
      · cases h

/-- The first sector of a block of an aligned volume is where the block's first byte is. -/
theorem readSector_mul (hs : v.SectorOk) (halign : v.firstSect.toNat % v.sectorUnits = 0) :
    (v.firstSect.toNat / v.sectorUnits + block * v.fastestXferSize.toNat) * v.sectorSize.toNat =
      v.firstSect.toNat * 512 + block * v.blockBytes := by
  have hq : v.firstSect.toNat / v.sectorUnits * v.sectorUnits = v.firstSect.toNat :=
    Nat.div_mul_cancel (Nat.dvd_of_mod_eq_zero halign)
  have hbytes : v.blockBytes = v.fastestXferSize.toNat * v.sectorSize.toNat := rfl
  rw [hbytes, hs.units]
  calc (v.firstSect.toNat / v.sectorUnits + block * v.fastestXferSize.toNat) * (v.sectorUnits * 512)
      = v.firstSect.toNat / v.sectorUnits * v.sectorUnits * 512 +
          block * (v.fastestXferSize.toNat * (v.sectorUnits * 512)) := by ring
    _ = _ := by rw [hq]

theorem divRoundup_eq {a b : Nat} (h : a + (b - 1) < 2 ^ 64) : divRoundup a b = some ((a + (b - 1)) / b) := by
  unfold divRoundup
  rw [checkedAdd_eq_some h]
  rfl

theorem le_roundup_mul (a : Nat) {b : Nat} (hb : 0 < b) : a ≤ (a + (b - 1)) / b * b := by
  have h := Nat.div_add_mod (a + (b - 1)) b
  have hlt := Nat.mod_lt (a + (b - 1)) hb
  rw [Nat.mul_comm] at h
  omega

theorem roundup_le (a : Nat) {b : Nat} (hb : 0 < b) : (a + (b - 1)) / b ≤ a := by
  rcases Nat.eq_zero_or_pos a with rfl | ha
  · rw [Nat.zero_add, Nat.div_eq_of_lt (by omega)]
  · apply Nat.div_le_of_le_mul
    obtain ⟨a, rfl⟩ := Nat.exists_eq_succ_of_ne_zero (by omega : a ≠ 0)
    obtain ⟨b, rfl⟩ := Nat.exists_eq_succ_of_ne_zero (by omega : b ≠ 0)
    have hmul : (b + 1) * (a + 1) = b * a + b + a + 1 := by ring
    show a + 1 + (b + 1 - 1) ≤ (b + 1) * (a + 1)
    omega

/-- What is transferred reaches to the end of the block or of the volume. -/
theorem clampXfer_covers (hs : v.SectorOk) (hp : v.Placed) {q : Nat} (hq : q ≤ v.firstSect.toNat)
    (h : clampXfer v q (q + block * v.fastestXferSize.toNat) = some xferSize) {k : Nat}
    (hk : k < v.blockBytes) (hin : v.Holds (block * v.blockBytes + k) 1) :
    k < xferSize * v.sectorSize.toNat := by
  unfold clampXfer at h
  split at h
  · cases h
    exact hk
  · next hknown =>
    have hu := hs.units_pos
    have hcount := hin hknown
    have hplaced := hp.known hknown
    obtain ⟨volumeSectors, hv, h⟩ := Option.bind_eq_some_iff.mp h
    unfold divRoundup at hv
    obtain ⟨sum, hsum, rfl⟩ := Option.map_eq_some_iff.mp hv
    obtain ⟨-, rfl⟩ := checkedAdd_eq_some_iff.mp hsum
    have hle := roundup_le v.sectCount.toNat hu
    have hge := le_roundup_mul v.sectCount.toNat hu
    generalize (v.sectCount.toNat + (v.sectorUnits - 1)) / v.sectorUnits = n at h hle hge
    rw [checkedAdd_eq_some (show q + n < 2 ^ 64 by omega)] at h
    simp only [Option.getD_some] at h
    split at h
    · cases h
    · next hlt =>
      have hmin := Option.some.inj h
      rcases Nat.le_total v.fastestXferSize.toNat (q + n - (q + block * v.fastestXferSize.toNat))
        with hfast | hfast
      · rw [Nat.min_eq_left hfast] at hmin
        rw [← hmin]
        exact hk
      · rw [Nat.min_eq_right hfast] at hmin
        have hx : xferSize + block * v.fastestXferSize.toNat = n := by omega
        have hbytes : v.blockBytes = v.fastestXferSize.toNat * v.sectorSize.toNat := rfl
        have hsum : xferSize * v.sectorSize.toNat + block * v.blockBytes = n * v.sectorUnits * 512 := by
          rw [hbytes, ← hx, hs.units]
          ring
        omega

/-- A block that begins in an aligned volume can be transferred. -/
theorem blockTransfer_isSome (hs : v.SectorOk) (hp : v.Placed)
    (halign : v.firstSect.toNat % v.sectorUnits = 0) (hin : v.Holds (block * v.blockBytes) 1)
    (hblock : block * v.blockBytes < 2 ^ 64) (hsize : v.sectCount ≠ unknownCount →
      v.sectCount.toNat * 512 < 2 ^ 64) : (blockTransfer v block).isSome := by
  have hu := hs.units_pos
  have hbytes : block * v.blockBytes = block * v.fastestXferSize.toNat * v.sectorUnits * 512 := by
    unfold Volume.blockBytes
    rw [hs.units]
    ring
  have hle : block * v.fastestXferSize.toNat ≤ block * v.fastestXferSize.toNat * v.sectorUnits :=
    Nat.le_mul_of_pos_right _ hu
  have hq : v.firstSect.toNat / v.sectorUnits ≤ v.firstSect.toNat := Nat.div_le_self _ _
  have hmul : checkedMul block v.fastestXferSize.toNat = some (block * v.fastestXferSize.toNat) :=
    checkedMul_eq_some_iff.mpr ⟨by omega, rfl⟩
  unfold blockTransfer
  rw [if_neg (by omega), hmul, Option.bind_some]
  by_cases hknown : v.sectCount = unknownCount
  · have hfirst : v.firstSect.toNat = 0 := by
      rw [hp.unknown hknown]
      rfl
    rw [checkedAdd_eq_some (by omega), Option.bind_some]
    unfold clampXfer
    rw [if_pos hknown]
    rfl
  · have hcount := hin hknown
    have hplaced := hp.known hknown
    have hsize := hsize hknown
    have hint : v.sectorUnits < 2 ^ 31 := by
      have := v.sectorSize_lt
      have := hs.units
      omega
    rw [checkedAdd_eq_some (by omega), Option.bind_some]
    unfold clampXfer
    rw [if_neg hknown, divRoundup_eq (by omega), Option.bind_some]
    have hle' := roundup_le v.sectCount.toNat hu
    have hge := le_roundup_mul v.sectCount.toNat hu
    generalize (v.sectCount.toNat + (v.sectorUnits - 1)) / v.sectorUnits = n at hle' hge
    rw [checkedAdd_eq_some (show v.firstSect.toNat / v.sectorUnits + n < 2 ^ 64 by omega)]
    have hlt : block * v.fastestXferSize.toNat < n := by
      apply Nat.lt_of_mul_lt_mul_right (a := v.sectorUnits)
      omega
    simp only [Option.getD_some]
    rw [if_neg (by omega)]
    rfl

theorem diskReadSectors_spec {cache cache' : Nat → UInt8} {count : Nat} {ok : Bool}
    (h : diskReadSectors e s cache block count = (ok, cache')) :
    (e.transfer s.time = .success → ok = true) ∧ (ok = true → ∀ k, k < count * s.volume.sectorSize.toNat →
      cache' k = e.device (block * s.volume.sectorSize.toNat + k)) := by
  unfold diskReadSectors at h
  split at h
  · next left ht =>
    cases h
    refine ⟨?_, by intro h; cases h⟩
    rw [ht]
    intro h
    cases h
  · cases h
    refine ⟨fun _ => rfl, ?_⟩
    intro _ k hk
    exact if_pos hk

/-- What one call of `cache_block` leaves. -/
structure BlockRead (e : Env) (s s' : State) (block : Nat) (ok : Bool) : Prop where
  same : Same s.volume s'.volume
  cached : Cached e s'.volume
  time : s.time ≤ s'.time
  hit : ok = true → s'.volume.cacheStatus = .ready ∧ s'.volume.cachedBlock = block
  blockBytes_lt : s.volume.blockBytes < 2 ^ e.sizeBits
  smooth : (blockTransfer s.volume block).isSome →
    (∀ t, s.time ≤ t → t < s'.time → e.transfer t = .success) → ok = true

theorem cacheBlock_spec {ok : Bool} (hc : Cached e s.volume) (hs : s.volume.SectorOk)
    (hp : s.volume.Placed) (h : cacheBlock e s block = .ok (ok, s')) :
    BlockRead e s s' block ok := by
  unfold cacheBlock at h
  split at h
  · next hhit =>
    cases h
    obtain ⟨cache, hcache, -⟩ := hc.ready hhit.1
    exact ⟨Same.refl _, hc, Nat.le_refl _, fun _ => ⟨hhit.1, hhit.2.symm⟩,
      hc.allocated (by rw [hcache]; simp), fun _ _ => rfl⟩
  · obtain ⟨⟨s₁, cache⟩, halloc, h⟩ := Lib.except_bind_eq_ok.mp h
    obtain ⟨hcache, hsame, htime, hstatus, hlt⟩ := allocCache_spec halloc hc.allocated
    have hsame : Same s.volume s₁.volume := (same_setStatus s .notReady).trans hsame
    have hlt : s.volume.blockBytes < 2 ^ e.sizeBits := hlt
    have hstatus : s₁.volume.cacheStatus = .notReady := hstatus
    have htime : s₁.time = s.time := htime
    -- a cache that is not ready holds anything
    have hstale : ∀ w : Volume, Same s.volume w → w.cacheStatus = .notReady → Cached e w := by
      intro w hw hst
      constructor
      · intro hr
        rw [hst] at hr
        cases hr
      · intro _
        rw [hw.blockBytes]
        exact hlt
    dsimp only at h
    split at h
    · next hnone =>
      cases h
      refine ⟨hsame, hstale _ hsame hstatus, by omega, (by intro h; cases h), hlt, ?_⟩
      intro hsome
      rw [hsame.blockTransfer] at hnone
      rw [hnone] at hsome
      cases hsome
    · next readSector xferSize hsome =>
      split at h
      · next cache' hread =>
        cases h
        have hfail : e.transfer s₁.time ≠ .success := by
          intro ht
          have := (diskReadSectors_spec hread).1 ht
          cases this
        have hfilled := hsame.trans (same_filled s₁ cache')
        refine ⟨hfilled, hstale _ hfilled hstatus, ?_, (by intro h; cases h), hlt, ?_⟩
        · show s.time ≤ s₁.time + 1
          omega
        · intro _ ht
          refine absurd (ht s₁.time (by omega) ?_) hfail
          show s₁.time < s₁.time + 1
          omega
      · next cache' hread =>
        cases h
        refine ⟨⟨hsame.1, hsame.2, hsame.3, hsame.4, hsame.5⟩, ?_, ?_, fun _ => ⟨rfl, rfl⟩, hlt,
          fun _ _ => rfl⟩
        · refine ⟨fun _ => ⟨cache', rfl, ?_⟩, fun _ => ?_⟩
          · intro k hk hin
            have hs₁ := hsame.sectorOk hs
            have hp₁ := hsame.placed hp
            show cache' k = s₁.volume.byteAt e (block * s₁.volume.blockBytes + k)
            unfold blockTransfer at hsome
            split at hsome
            · cases hsome
            · next halign =>
              have halign : s₁.volume.firstSect.toNat % s₁.volume.sectorUnits = 0 := by omega
              obtain ⟨blockOffset, hmul, hsome⟩ := Option.bind_eq_some_iff.mp hsome
              obtain ⟨-, rfl⟩ := checkedMul_eq_some_iff.mp hmul
              obtain ⟨sector, hadd, hsome⟩ := Option.bind_eq_some_iff.mp hsome
              obtain ⟨-, rfl⟩ := checkedAdd_eq_some_iff.mp hadd
              obtain ⟨xfer, hclamp, hpair⟩ := Option.map_eq_some_iff.mp hsome
              cases hpair
              have hcov := clampXfer_covers hs₁ hp₁ (Nat.div_le_self _ _) hclamp hk hin
              rw [(diskReadSectors_spec hread).2 rfl k hcov, readSector_mul hs₁ halign]
              unfold Volume.byteAt
              rw [Nat.add_assoc]
          · show s₁.volume.blockBytes < 2 ^ e.sizeBits
            rw [hsame.blockBytes]
            exact hlt
        · show s.time ≤ s₁.time + 1
          omega

end Block

/-! ## The loop -/

/-- The first `count` bytes from `loc` on. -/
def Volume.bytes (v : Volume) (e : Env) (loc count : Nat) : List UInt8 :=
  (List.range count).map fun k => v.byteAt e (loc + k)

theorem Same.bytes {v v' : Volume} (h : Same v v') (e : Env) : v'.bytes e = v.bytes e := by
  funext loc count
  unfold Volume.bytes
  rw [h.byteAt]

theorem length_bytes (v : Volume) (e : Env) (loc count : Nat) : (v.bytes e loc count).length = count := by
  simp [Volume.bytes]

theorem bytes_append (v : Volume) (e : Env) (loc m n : Nat) :
    v.bytes e loc m ++ v.bytes e (loc + m) n = v.bytes e loc (m + n) := by
  unfold Volume.bytes
  rw [List.range_add, List.map_append, List.map_map]
  congr 1
  apply List.map_congr_left
  intro k _
  show v.byteAt e (loc + m + k) = v.byteAt e (loc + (m + k))
  rw [Nat.add_assoc]

/-- What is copied out of a cached block. -/
theorem copyOut_eq {e : Env} {v : Volume} (hc : Cached e v) (hr : v.cacheStatus = .ready)
    {offset chunk : Nat} (hchunk : offset + chunk ≤ v.blockBytes)
    (hin : v.Holds (v.cachedBlock * v.blockBytes + offset) chunk) :
    v.copyOut offset chunk = v.bytes e (v.cachedBlock * v.blockBytes + offset) chunk := by
  obtain ⟨cache, hcache, hbytes⟩ := hc.ready hr
  unfold Volume.copyOut Volume.bytes
  apply List.map_congr_left
  intro k hk
  rw [List.mem_range] at hk
  rw [hcache, Option.getD_some, hbytes (offset + k) (by omega), Nat.add_assoc]
  intro hknown
  have := hin hknown
  omega

/-- What a call of `volume_read` leaves. -/
structure Reads (e : Env) (s s' : State) (loc count : Nat) (ok : Bool) (buffer : List UInt8) : Prop where
  same : Same s.volume s'.volume
  cached : Cached e s'.volume
  time : s.time ≤ s'.time
  delivered : ok = true → buffer = s.volume.bytes e loc count
  smooth : s.volume.firstSect.toNat % s.volume.sectorUnits = 0 →
    (s.volume.sectCount ≠ unknownCount → s.volume.sectCount.toNat * 512 < 2 ^ 64) →
    (∀ t, s.time ≤ t → t < s'.time → e.transfer t = .success) → ok = true

theorem readLoop_spec {e : Env} {loc count : Nat} (hfit : loc + count < 2 ^ 64) (fuel : Nat) :
    ∀ {s s' : State} {n : Nat} {ok : Bool} {buffer : List UInt8}, Cached e s.volume →
      s.volume.SectorOk → s.volume.Placed → s.volume.Holds loc count → n ≤ count →
      count - n ≤ fuel →
      readLoop e loc count fuel s (s.volume.bytes e loc n) = .ok (ok, s', buffer) →
      Reads e s s' loc count ok buffer := by
  induction fuel with
  | zero =>
    intro s s' n ok buffer hc _ _ _ hn hfuel h
    cases h
    have : n = count := by omega
    subst this
    exact ⟨Same.refl _, hc, Nat.le_refl _, fun _ => rfl, fun _ _ _ => rfl⟩
  | succ fuel ih =>
    intro s s' n ok buffer hc hs hp hin hn hfuel h
    unfold readLoop at h
    rw [length_bytes] at h
    split at h
    · next hlt =>
      rw [Nat.mod_eq_of_lt (by omega : loc + n < 2 ^ 64)] at h
      dsimp only at h
      split at h
      · cases h
      · next hsize =>
        obtain ⟨⟨ok₁, s₁⟩, hblock, h⟩ := Lib.except_bind_eq_ok.mp h
        have hb := cacheBlock_spec hc hs hp hblock
        have hbs : blockSize e s.volume = s.volume.blockBytes := Nat.mod_eq_of_lt hb.blockBytes_lt
        rw [hbs] at h hsize hb
        have hdiv := Nat.div_add_mod (loc + n) s.volume.blockBytes
        have hmod := Nat.mod_lt (loc + n) (Nat.pos_of_ne_zero hsize)
        rw [Nat.mul_comm] at hdiv
        cases ok₁ with
        | false =>
          cases h
          refine ⟨hb.same, hb.cached, hb.time, (by intro h; cases h), ?_⟩
          intro halign hbytes ht
          refine hb.smooth (blockTransfer_isSome hs hp halign ?_ (by omega) hbytes) ht
          intro hknown
          have := hin hknown
          omega
        | true =>
          dsimp only at h
          obtain ⟨hready, hcur⟩ := hb.hit rfl
          generalize hchunk : min (count - n) (s.volume.blockBytes - (loc + n) % s.volume.blockBytes)
            = chunk at h
          have hchunk_le : n + chunk ≤ count ∧
              (loc + n) % s.volume.blockBytes + chunk ≤ s.volume.blockBytes ∧ 0 < chunk := by omega
          have hcopy : s₁.volume.copyOut ((loc + n) % s.volume.blockBytes) chunk =
              s.volume.bytes e (loc + n) chunk := by
            have hwhere : s₁.volume.cachedBlock * s₁.volume.blockBytes +
                (loc + n) % s.volume.blockBytes = loc + n := by
              rw [hcur, hb.same.blockBytes]
              exact hdiv
            rw [copyOut_eq hb.cached hready (by rw [hb.same.blockBytes]; exact hchunk_le.2.1),
              hwhere, hb.same.bytes]
            rw [hwhere, hb.same.holds]
            intro hknown
            have := hin hknown
            omega
          rw [hcopy, bytes_append, ← hb.same.bytes e] at h
          have hrest := ih hb.cached (hb.same.sectorOk hs) (hb.same.placed hp)
            (hb.same.holds.mpr hin) hchunk_le.1 (by omega) h
          refine ⟨hb.same.trans hrest.same, hrest.cached, Nat.le_trans hb.time hrest.time, ?_, ?_⟩
          · intro hok
            rw [hrest.delivered hok, hb.same.bytes]
          · intro halign hbytes ht
            refine hrest.smooth ?_ ?_ fun t ht₁ ht₂ => ht t (Nat.le_trans hb.time ht₁) ht₂
            · rw [hb.same.firstSect, hb.same.sectorUnits]
              exact halign
            · rw [hb.same.sectCount]
              exact hbytes
    · next hlt =>
      cases h
      have : n = count := by omega
      subst this
      exact ⟨Same.refl _, hc, Nat.le_refl _, fun _ => rfl, fun _ _ _ => rfl⟩

/-! ## Calls that return -/

/-- The cache is there or can be allocated. -/
def CacheFits (e : Env) (v : Volume) : Prop :=
  v.cache ≠ none ∨ v.blockBytes < 2 ^ 64 ∧ e.canAlloc v.blockBytes = true

theorem allocCache_ok {e : Env} {s : State} (h : CacheFits e s.volume) :
    ∃ r, allocCache e s = .ok r := by
  unfold allocCache
  split
  · next c hc => exact ⟨_, rfl⟩
  · next hc =>
    rcases h with h | ⟨hlt, ha⟩
    · exact absurd hc h
    · rw [show checkedMul s.volume.fastestXferSize.toNat s.volume.sectorSize.toNat =
        some s.volume.blockBytes from checkedMul_eq_some_iff.mpr ⟨hlt, rfl⟩]
      dsimp only
      rw [if_pos ha]
      exact ⟨_, rfl⟩

theorem cacheBlock_ok {e : Env} {s : State} {block : Nat} (hc : Cached e s.volume)
    (h : CacheFits e s.volume) :
    ∃ ok s', cacheBlock e s block = .ok (ok, s') ∧ CacheFits e s'.volume := by
  unfold cacheBlock
  split
  · exact ⟨_, _, rfl, h⟩
  · obtain ⟨⟨s₁, cache⟩, halloc⟩ := allocCache_ok (e := e) (s := s.setStatus .notReady) h
    obtain ⟨hcache, -⟩ := allocCache_spec halloc hc.allocated
    rw [halloc, Lib.ok_bind]
    dsimp only
    split
    · refine ⟨_, _, rfl, Or.inl ?_⟩
      rw [hcache]
      simp
    · split
      · exact ⟨_, _, rfl, Or.inl (by simp [State.tick, State.setCache])⟩
      · exact ⟨_, _, rfl, Or.inl (by simp [State.tick, State.setCache, State.setStatus, State.setBlock])⟩

theorem readLoop_ok {e : Env} {loc count : Nat} (fuel : Nat) :
    ∀ {s : State} {buffer : List UInt8}, Cached e s.volume → s.volume.SectorOk →
      s.volume.Placed → CacheFits e s.volume → blockSize e s.volume ≠ 0 →
      ∃ r, readLoop e loc count fuel s buffer = .ok r := by
  induction fuel with
  | zero =>
    intro s buffer _ _ _ _ _
    exact ⟨_, rfl⟩
  | succ fuel ih =>
    intro s buffer hc hs hp hfits hsize
    unfold readLoop
    split
    · dsimp only
      rw [if_neg hsize]
      obtain ⟨ok₁, s₁, hblock, hfits₁⟩ := @cacheBlock_ok e s
        ((loc + buffer.length) % 2 ^ 64 / blockSize e s.volume) hc hfits
      have hb := cacheBlock_spec hc hs hp hblock
      rw [hblock, Lib.ok_bind]
      cases ok₁ with
      | false => exact ⟨_, rfl⟩
      | true =>
        exact ih hb.cached (hb.same.sectorOk hs) (hb.same.placed hp) hfits₁
          (by rw [hb.same.blockSize]; exact hsize)
    · exact ⟨_, rfl⟩

/-! ## Sequences of calls -/

/-- No block was ever asked for. -/
structure Volume.Fresh (v : Volume) : Prop where
  cacheStatus : v.cacheStatus = .notReady
  cache : v.cache = none

/-- The states some calls of `volume_read` lead to. -/
inductive Reached (e : Env) (v : Volume) : State → Prop
  | start (time : Nat) : Reached e v ⟨v, time⟩
  | call {s s' : State} {loc count : UInt64} {ok : Bool} {buffer : List UInt8} :
    Reached e v s → loc.toNat + count.toNat < 2 ^ 64 →
    volumeRead e s loc count = .ok (ok, s', buffer) → Reached e v s'

/-- What a call that is not turned down has checked. -/
structure Accepts (v : Volume) (loc count : Nat) : Prop where
  pxe : v.pxe = false
  fastestXferSize : v.fastestXferSize ≠ 0
  sectorOk : v.SectorOk
  holds : v.Holds loc count

theorem outOfRange_holds {v : Volume} {loc count : Nat} (h : outOfRange v loc count = false) :
    v.Holds loc count := by
  intro hknown
  unfold outOfRange at h
  rw [if_neg hknown] at h
  split at h
  · cases h
  · next partSize hmul =>
    obtain ⟨-, rfl⟩ := checkedMul_eq_some_iff.mp hmul
    simp only [Bool.or_eq_false_iff, decide_eq_false_iff_not] at h
    omega

/-- A call is turned down, and then changes nothing, or runs its loop. -/
theorem volumeRead_cases {e : Env} {s s' : State} {loc count : UInt64} {ok : Bool}
    {buffer : List UInt8} (h : volumeRead e s loc count = .ok (ok, s', buffer)) :
    ok = false ∧ s' = s ∨ Accepts s.volume loc.toNat count.toNat ∧
      readLoop e loc.toNat count.toNat count.toNat s [] = .ok (ok, s', buffer) := by
  unfold volumeRead at h
  split at h
  · cases h
  · next hpxe =>
    split at h
    · cases h
      exact Or.inl ⟨rfl, rfl⟩
    · next hchecks =>
      simp only [not_or] at hchecks
      split at h
      · cases h
        exact Or.inl ⟨rfl, rfl⟩
      · next hrange =>
        exact Or.inr ⟨⟨by simpa using hpxe, hchecks.1, .of_checks hchecks.2.1 hchecks.2.2,
          outOfRange_holds (by simpa using hrange)⟩, h⟩

/-- A call either is turned down or leaves what `Reads` says. -/
theorem volumeRead_spec {e : Env} {s s' : State} {loc count : UInt64} {ok : Bool}
    {buffer : List UInt8} (hc : Cached e s.volume) (hp : s.volume.Placed)
    (hfit : loc.toNat + count.toNat < 2 ^ 64)
    (h : volumeRead e s loc count = .ok (ok, s', buffer)) :
    ok = false ∧ s' = s ∨ Accepts s.volume loc.toNat count.toNat ∧
      Reads e s s' loc.toNat count.toNat ok buffer := by
  rcases volumeRead_cases h with hdown | ⟨ha, h⟩
  · exact Or.inl hdown
  · exact Or.inr ⟨ha, readLoop_spec hfit _ hc ha.sectorOk hp ha.holds (Nat.zero_le _) (Nat.le_refl _) h⟩

theorem Reached.invariant {e : Env} {v : Volume} {s : State} (hv : v.Fresh) (hp : v.Placed)
    (h : Reached e v s) : Same v s.volume ∧ Cached e s.volume := by
  induction h with
  | start time =>
    refine ⟨Same.refl v, ?_, ?_⟩
    · intro hr
      rw [hv.cacheStatus] at hr
      cases hr
    · intro hn
      exact absurd hv.cache hn
  | call _ hfit hcall ih =>
    obtain ⟨hsame, hc⟩ := ih
    rcases volumeRead_spec hc (hsame.placed hp) hfit hcall with ⟨-, rfl⟩ | ⟨-, hr⟩
    · exact ⟨hsame, hc⟩
    · exact ⟨hsame.trans hr.same, hr.cached⟩

/-- What a volume needs for its reads to succeed as long as the disk does. -/
structure Volume.Usable (v : Volume) (e : Env) : Prop where
  pxe : v.pxe = false
  fastestXferSize : v.fastestXferSize ≠ 0
  le : 512 ≤ v.sectorSize
  mod : v.sectorSize % 512 = 0
  aligned : v.firstSect.toNat % v.sectorUnits = 0
  bytes_lt : v.sectCount ≠ unknownCount → v.sectCount.toNat * 512 < 2 ^ 64
  blockBytes_lt : v.blockBytes < 2 ^ 64
  canAlloc : e.canAlloc v.blockBytes = true

theorem Volume.Usable.blockBytes_pos {e : Env} {v : Volume} (h : v.Usable e) : 0 < v.blockBytes := by
  have hx : 0 < v.fastestXferSize.toNat := by
    rcases Nat.eq_zero_or_pos v.fastestXferSize.toNat with h0 | h0
    · exact absurd (UInt64.toNat_inj.mp h0) h.fastestXferSize
    · exact h0
  have := h.le
  exact Nat.mul_pos hx (by omega)

/-- In any state that calls of `volume_read` lead to, a call that returns true delivers the
device's bytes and stays inside the volume; a call inside a usable volume returns, and returns
true unless one of its own transfers failed. -/
theorem volumeRead_transparent (e : Env) (v : Volume) (hv : v.Fresh) (hp : v.Placed) {s : State}
    (hs : Reached e v s) (loc count : UInt64) (hfit : loc.toNat + count.toNat < 2 ^ 64) :
    (∀ s' buffer, volumeRead e s loc count = .ok (true, s', buffer) →
      buffer = v.bytes e loc.toNat count.toNat ∧ v.Holds loc.toNat count.toNat) ∧
    (v.Usable e → v.Holds loc.toNat count.toNat →
      (v.sectCount ≠ unknownCount → loc.toNat < v.sectCount.toNat * 512) →
      ∃ ok s' buffer, volumeRead e s loc count = .ok (ok, s', buffer) ∧
        ((∀ t, s.time ≤ t → t < s'.time → e.transfer t = .success) → ok = true)) := by
  obtain ⟨hsame, hc⟩ := hs.invariant hv hp
  have hp' := hsame.placed hp
  constructor
  · intro s' buffer h
    rcases volumeRead_spec hc hp' hfit h with ⟨hok, -⟩ | ⟨ha, hr⟩
    · cases hok
    · rw [← hsame.bytes e]
      exact ⟨hr.delivered rfl, hsame.holds.mp ha.holds⟩
  · intro hu hin hstart
    have hok : v.SectorOk := .of_checks (by have := hu.le; omega) (by have := hu.mod; omega)
    have hrange : outOfRange s.volume loc.toNat count.toNat = false := by
      unfold outOfRange
      rw [hsame.sectCount]
      split
      · rfl
      · next hknown =>
        rw [checkedMul_eq_some_iff.mpr ⟨hu.bytes_lt hknown, rfl⟩]
        have := hin hknown
        have := hstart hknown
        simp
        omega
    have hfits : CacheFits e s.volume := by
      refine Or.inr ?_
      rw [hsame.blockBytes]
      exact ⟨hu.blockBytes_lt, hu.canAlloc⟩
    have hsize : blockSize e s.volume ≠ 0 := by
      rw [hsame.blockSize]
      show v.blockBytes % 2 ^ e.sizeBits ≠ 0
      rw [Nat.mod_eq_of_lt (e.canAlloc_lt _ hu.canAlloc)]
      have := hu.blockBytes_pos
      omega
    obtain ⟨⟨ok, s', buffer⟩, hloop⟩ := @readLoop_ok e loc.toNat count.toNat count.toNat s [] hc
      (hsame.sectorOk hok) hp' hfits hsize
    have hcall : volumeRead e s loc count = .ok (ok, s', buffer) := by
      unfold volumeRead
      rw [hsame.pxe, hsame.fastestXferSize, hsame.sectorSize, hu.pxe, hrange, if_neg (by simp), if_neg,
        if_neg (by simp), hloop]
      rintro (h | h | h)
      · exact hu.fastestXferSize h
      · have := hu.le
        omega
      · exact h hu.mod
    refine ⟨ok, s', buffer, hcall, ?_⟩
    intro hsmooth
    have hr := readLoop_spec hfit _ hc (hsame.sectorOk hok) hp' (hsame.holds.mpr hin)
      (Nat.zero_le _) (Nat.le_refl _) hloop
    apply hr.smooth _ _ hsmooth
    · rw [hsame.firstSect, hsame.sectorUnits]
      exact hu.aligned
    · rw [hsame.sectCount]
      exact hu.bytes_lt

/-- A disk whose first transfer fails. -/
def flakyDisk : Env where
  sizeBits := 64
  device := UInt8.ofNat
  canAlloc n := n < 2 ^ 32
  transfer t := if t = 0 then .failure fun _ => 255 else .success
  canAlloc_lt := by
    intro n h
    simp at h
    omega

/-- Two and a half sectors of 1024 bytes. -/
def cutVolume : Volume where
  fastestXferSize := 2
  pxe := false
  sectorSize := 1024
  sectorSize_lt := by decide
  cacheStatus := .notReady
  cache := none
  cachedBlock := 0
  firstSect := 4
  sectCount := 5

/-- After a read that failed, the end of the volume is read as it is. -/
theorem volumeRead_transparent_cut :
    ∃ s s' buffer, volumeRead flakyDisk ⟨cutVolume, 0⟩ 0 16 = .ok (false, s, []) ∧
      volumeRead flakyDisk s 2000 560 = .ok (true, s', buffer) ∧
      buffer = cutVolume.bytes flakyDisk 2000 560 := by
  have hfresh : cutVolume.Fresh := ⟨rfl, rfl⟩
  have hplaced : cutVolume.Placed := ⟨by decide, by decide⟩
  obtain ⟨s, hfirst, htime⟩ : ∃ s, volumeRead flakyDisk ⟨cutVolume, 0⟩ 0 16 = .ok (false, s, []) ∧
      s.time = 1 := ⟨_, rfl, rfl⟩
  have hs : Reached flakyDisk cutVolume s := (Reached.start 0).call (by decide) hfirst
  obtain ⟨hread, hok⟩ := volumeRead_transparent flakyDisk cutVolume hfresh hplaced hs 2000 560 (by decide)
  obtain ⟨ok, s', buffer, hcall, hsmooth⟩ := hok
    ⟨rfl, by decide, by decide, by decide, by decide, by decide, by decide, by decide⟩
    (by unfold Volume.Holds; decide) (by decide)
  have hlater : ∀ t, s.time ≤ t → t < s'.time → flakyDisk.transfer t = .success := by
    intro t ht _
    exact if_neg (by omega)
  rw [hsmooth hlater] at hcall
  exact ⟨s, s', buffer, hfirst, hcall, (hread s' buffer hcall).1⟩

/-- A volume without a transfer size reads nothing, however good its disk. -/
theorem volumeRead_noTransferSize :
    ¬ ∀ (e : Env) (v : Volume) (loc count : UInt64), v.Fresh → v.Placed → v.SectorOk →
      v.firstSect.toNat % v.sectorUnits = 0 → loc.toNat + count.toNat < 2 ^ 64 →
      v.Holds loc.toNat count.toNat →
      ∃ s' buffer, volumeRead { e with transfer := fun _ => .success } ⟨v, 0⟩ loc count =
        .ok (true, s', buffer) := by
  intro h
  obtain ⟨s', buffer, hcall⟩ := h flakyDisk { cutVolume with fastestXferSize := 0 } 0 16 ⟨rfl, rfl⟩
    ⟨by decide, by decide⟩ ⟨by decide, by decide⟩ (by decide) (by decide)
    (by unfold Volume.Holds; decide)
  have hdown : volumeRead { flakyDisk with transfer := fun _ => .success }
      ⟨{ cutVolume with fastestXferSize := 0 }, 0⟩ 0 16 =
        .ok (false, ⟨{ cutVolume with fastestXferSize := 0 }, 0⟩, []) := rfl
  rw [hdown] at hcall
  cases hcall

end Limine.Part
