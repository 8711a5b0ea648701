import Limine.Host.DeviceSpec

/-!
# Reading and writing extents

`device_read_raw` returns a slice of the view and `device_write_raw`'s loop splices the view, if
they return true; both succeed inside the device's whole blocks when no operation fails.
-/

namespace Limine.Host

open Limine.Lib

/-- The extent lies in the first `n` bytes. -/
def Inside (n : Nat) (loc : UInt64) (count : Nat) : Prop := count = 0 ∨ loc.toNat + count ≤ n

instance (n : Nat) (loc : UInt64) (count : Nat) : Decidable (Inside n loc count) :=
  inferInstanceAs (Decidable (_ ∨ _))

/-- No block of the extent has the number `noBlock`. -/
def Addressable (blockSize : Nat) (loc : UInt64) (count : Nat) : Prop :=
  1 < blockSize ∨ loc.toNat + count < 2 ^ 64

/-! ## Blocks and chunks -/

theorem block_le_whole {size len b : Nat} (h0 : 0 < size) (h : b * size + size ≤ len) :
    b * size + size ≤ len / size * size := by
  have h1 : (b + 1) * size ≤ len := by rwa [Nat.add_mul, Nat.one_mul]
  have h2 := Nat.mul_le_mul_right size ((Nat.le_div_iff_mul_le h0).mpr h1)
  rwa [Nat.add_mul, Nat.one_mul] at h2

theorem block_of_lt_whole {size len a : Nat} (h0 : 0 < size) (h : a < len / size * size) :
    a / size * size + size ≤ len := by
  have h1 : a / size + 1 ≤ len / size := (Nat.div_lt_iff_lt_mul h0).mpr h
  have h2 := (Nat.le_div_iff_mul_le h0).mp h1
  rwa [Nat.add_mul, Nat.one_mul] at h2

theorem block_ne_noBlock {size : Nat} {loc : UInt64} {count progress : Nat}
    (h : Addressable size loc count) (hp : progress < count) : address loc progress / size ≠ noBlock := by
  unfold address noBlock
  rcases h with h | h
  · have : (loc.toNat + progress) % 2 ^ 64 / size ≤ (loc.toNat + progress) % 2 ^ 64 / 2 :=
      Nat.div_le_div_left h (by decide)
    omega
  · have := Nat.div_le_self ((loc.toNat + progress) % 2 ^ 64) size
    omega

theorem chunkSize_spec {s : Disk} (h0 : 0 < s.blockSize) (loc : UInt64) {count progress : Nat}
    (hp : progress < count) :
    0 < chunkSize s loc count progress ∧ progress + chunkSize s loc count progress ≤ count ∧
    address loc progress % s.blockSize + chunkSize s loc count progress ≤ s.blockSize ∧
    (progress + chunkSize s loc count progress = count ∨
      address loc progress % s.blockSize + chunkSize s loc count progress = s.blockSize) := by
  have := Nat.mod_lt (address loc progress) h0
  unfold chunkSize
  dsimp only
  split
  all_goals omega

/-- Where the chunk at `progress` lies, once its block is known to be on the device. -/
theorem chunk_block {s : Disk} {loc : UInt64} {progress : Nat}
    (ha : loc.toNat + progress < 2 ^ 64) :
    address loc progress / s.blockSize * s.blockSize + address loc progress % s.blockSize =
      loc.toNat + progress := by
  unfold address
  rw [Nat.mod_eq_of_lt ha, Nat.mul_comm]
  exact Nat.div_add_mod _ _

/-! ## Reading -/

/-- What reading an extent does. -/
structure ReadPost (loc : UInt64) (count : Nat) (s : Disk) (r : Bool × Disk × List UInt8) : Prop where
  keeps : Keeps s r.2.1
  coherent : Coherent r.2.1
  read : r.1 = true → r.2.2 = slice s.view loc.toNat count ∧ Inside s.whole loc count
  ok : Inside s.whole loc count → (∀ n, Smooth n s) → r.1 = true ∧ ∀ n, Smooth n r.2.1

/-- A block that an extent inside the device meets can be cached. -/
theorem block_of_inside {s : Disk} (h0 : 0 < s.blockSize) {loc : UInt64} {count progress : Nat}
    (ha : loc.toNat + progress < 2 ^ 64) (hp : progress < count) (h : Inside s.whole loc count) :
    address loc progress / s.blockSize * s.blockSize + s.blockSize ≤ s.device.length := by
  refine block_of_lt_whole h0 ?_
  have hw : loc.toNat + count ≤ s.whole := h.resolve_left (by omega)
  have : address loc progress = loc.toNat + progress := Nat.mod_eq_of_lt ha
  unfold Disk.whole at hw
  omega

theorem readLoop_spec (loc : UInt64) (count : Nat) : ∀ fuel s buffer, Coherent s →
    Addressable s.blockSize loc count → buffer.length ≤ count → count - buffer.length ≤ fuel →
    loc.toNat + buffer.length < 2 ^ 64 → Inside s.whole loc buffer.length →
    buffer = slice s.view loc.toNat buffer.length →
    ReadPost loc count s (readLoop loc count fuel s buffer) := by
  intro fuel
  induction fuel with
  | zero =>
    intro s buffer h _ hle hf _ hin hbuf
    obtain hl : buffer.length = count := by omega
    rw [hl] at hin hbuf
    exact ⟨Keeps.refl s, h, fun _ => ⟨hbuf, hin⟩, fun _ hs => ⟨rfl, hs⟩⟩
  | succ fuel ih =>
    intro s buffer h haddr hle hf h64 hin hbuf
    have h0 := h.blockSize_pos
    unfold readLoop
    split
    · next hlt =>
      obtain ⟨hk, hc, hok, hsm⟩ := deviceCacheBlock_spec h (block_ne_noBlock haddr hlt)
      have hblock := block_of_inside h0 h64 hlt
      rcases hcb : deviceCacheBlock s (address loc buffer.length / s.blockSize) with ⟨ok, s'⟩
      rw [hcb] at hk hc hok hsm
      dsimp only at hk hc hok hsm ⊢
      cases ok with
      | false =>
        exact ⟨hk, hc, fun h => absurd h (by simp),
          fun hI hs => absurd (hsm (hblock hI) 0 (hs 2)).1 (by simp)⟩
      | true =>
        obtain ⟨hcached, hfit⟩ := hok rfl
        have hne : s'.cachedBlock ≠ noBlock := by
          rw [hcached]
          exact block_ne_noBlock haddr hlt
        obtain ⟨hpos, hcnt, hroom, -⟩ := chunkSize_spec h0 loc hlt
        have hblk := @chunk_block s loc _ h64
        have hlen := h.length_view
        have hdl := h.device_lt
        have hfit' : address loc buffer.length / s.blockSize * s.blockSize + s.blockSize ≤ s.whole :=
          block_le_whole h0 hfit
        dsimp only
        rw [hk.blockSize]
        -- the chunk is a slice of the view
        have hpiece : slice s'.cache (address loc buffer.length % s.blockSize)
            (chunkSize s' loc count buffer.length) =
            slice s.view (loc.toNat + buffer.length) (chunkSize s loc count buffer.length) := by
          have hcs : chunkSize s' loc count buffer.length = chunkSize s loc count buffer.length := by
            unfold chunkSize
            rw [hk.blockSize]
          rw [hcs, ← hc.cached hne, hcached, hk.blockSize, hk.view, slice_slice _ _ hroom, hblk]
        rw [hpiece]
        have happ : (buffer ++ slice s.view (loc.toNat + buffer.length)
            (chunkSize s loc count buffer.length)).length =
            buffer.length + chunkSize s loc count buffer.length := by
          rw [List.length_append, length_slice (by omega)]
        have hnext := ih s' _ hc (hk.blockSize ▸ haddr) (happ ▸ hcnt) (by omega) (by omega)
          (by rw [hk.whole h, happ]; exact Or.inr (by omega))
          (by rw [happ, hk.view, ← slice_append_slice (by omega), ← hbuf])
        refine ⟨hk.trans hnext.keeps, hnext.coherent, fun h' => ?_, fun hI hs => ?_⟩
        · have := hnext.read h'
          rwa [hk.view, hk.whole h] at this
        · exact hnext.ok ((hk.whole h).symm ▸ hI) fun n => (hsm (hblock hI) n (hs (n + 2))).2
    · obtain hl : buffer.length = count := by omega
      rw [hl] at hin hbuf
      exact ⟨Keeps.refl s, h, fun _ => ⟨hbuf, hin⟩, fun _ hs => ⟨rfl, hs⟩⟩

theorem deviceReadRaw_spec {s : Disk} (h : Coherent s) {loc : UInt64} {count : Nat}
    (haddr : Addressable s.blockSize loc count) :
    ReadPost loc count s (deviceReadRaw s loc count) :=
  readLoop_spec loc count count s [] h haddr (Nat.zero_le _) (Nat.sub_le _ _) loc.toNat_lt (Or.inl rfl)
    (by simp [slice])

/-! ## Writing -/

theorem fill_spec {s : Disk} (h : Coherent s) (hb : s.cachedBlock ≠ noBlock) {off : Nat}
    {bytes : List UInt8} (hoff : off + bytes.length ≤ s.blockSize) :
    Coherent (s.fill off bytes) ∧
    (s.fill off bytes).view = splice s.view (s.cachedBlock * s.blockSize + off) bytes := by
  have hin : off + bytes.length ≤ s.cache.length := h.cache_length.symm ▸ hoff
  have hclen := length_splice hin
  have hview : (s.fill off bytes).view =
      splice s.device (s.cachedBlock * s.blockSize) (splice s.cache off bytes) := rfl
  have hfits := h.fits hb
  refine ⟨⟨h.blockSize_pos, h.device_lt, hclen.trans h.cache_length, fun _ => h.inside hb, fun _ => ?_,
    fun _ => hb⟩, ?_⟩
  · have hs := @slice_splice _ s.device (s.cachedBlock * s.blockSize) (splice s.cache off bytes)
      (hclen.symm ▸ hfits)
    rwa [hclen, h.cache_length] at hs
  · rw [hview, splice_splice_inner hfits hin, h.view_eq hb]

/-- The variables a write loop leaves alone. -/
structure Same (s s' : Disk) : Prop where
  blockSize : s'.blockSize = s.blockSize
  length : s'.device.length = s.device.length
  uninstalling : s'.uninstalling = s.uninstalling
  uninstallData : s'.uninstallData = s.uninstallData

theorem Same.trans {s s' s'' : Disk} (h : Same s s') (h' : Same s' s'') : Same s s'' :=
  ⟨h'.blockSize.trans h.blockSize, h'.length.trans h.length, h'.uninstalling.trans h.uninstalling,
    h'.uninstallData.trans h.uninstallData⟩

theorem Same.whole {s s' : Disk} (h : Same s s') : s'.whole = s.whole := by
  unfold Disk.whole
  rw [h.length, h.blockSize]

theorem Keeps.same {s s' : Disk} (hc : Coherent s) (h : Keeps s s') : Same s s' :=
  ⟨h.blockSize, h.length_device hc, h.uninstalling, h.uninstallData⟩

/-- The blocks an extent meets from `progress` on. -/
def blocksFrom (blockSize : Nat) (loc : UInt64) (count progress : Nat) : Nat :=
  if progress < count then
    (loc.toNat + count - 1) / blockSize - (loc.toNat + progress) / blockSize + 1
  else 0

/-- What the write loop does from `progress` on, begun on the view `v`. -/
structure WritePost (v buffer : List UInt8) (loc : UInt64) (progress : Nat) (s : Disk)
    (r : Bool × Disk) : Prop where
  same : Same s r.2
  coherent : Coherent r.2
  written : r.1 = true → r.2.view = splice v loc.toNat buffer ∧ Inside s.whole loc buffer.length
  stale : ∀ S : Nat → Prop, (∀ k, loc.toNat ≤ k → k < loc.toNat + buffer.length → S k) →
    AgreeOff S s.view s.device → AgreeOff S r.2.view r.2.device
  ok : Inside s.whole loc buffer.length → ∀ n,
    Smooth (2 * blocksFrom s.blockSize loc buffer.length progress + n) s →
    r.1 = true ∧ Smooth n r.2

theorem WritePost.done {v buffer : List UInt8} {loc : UInt64} {s : Disk} (h : Coherent s)
    (hin : Inside s.whole loc buffer.length) (hv : s.view = splice v loc.toNat buffer) :
    WritePost v buffer loc buffer.length s (true, s) :=
  ⟨⟨rfl, rfl, rfl, rfl⟩, h, fun _ => ⟨hv, hin⟩, fun _ _ h => h,
    fun _ _ hs => ⟨rfl, hs.mono (Nat.le_add_left _ _)⟩⟩

/-- The loop goes on in the next block, or is done. -/
theorem blocksFrom_step {s : Disk} (h0 : 0 < s.blockSize) {loc : UInt64} {count progress : Nat}
    (ha : loc.toNat + progress < 2 ^ 64) (hp : progress < count) :
    blocksFrom s.blockSize loc count progress =
      blocksFrom s.blockSize loc count (progress + chunkSize s loc count progress) + 1 := by
  obtain ⟨hpos, hcnt, hroom, hend⟩ := chunkSize_spec h0 loc hp
  have hblk := @chunk_block s loc _ ha
  have haddr : address loc progress = loc.toNat + progress := Nat.mod_eq_of_lt ha
  unfold blocksFrom
  rw [if_pos hp]
  rw [haddr] at hblk hroom hend
  generalize chunkSize s loc count progress = chunk at *
  by_cases hlast : progress + chunk < count
  · -- the chunk ends its block
    have hnext : loc.toNat + (progress + chunk) =
        ((loc.toNat + progress) / s.blockSize + 1) * s.blockSize := by
      rw [Nat.add_mul, Nat.one_mul]
      omega
    have hle : (loc.toNat + (progress + chunk)) / s.blockSize ≤ (loc.toNat + count - 1) / s.blockSize :=
      Nat.div_le_div_right (by omega)
    rw [if_pos hlast]
    rw [hnext, Nat.mul_div_cancel _ h0] at hle ⊢
    omega
  · have hsame : (loc.toNat + count - 1) / s.blockSize = (loc.toNat + progress) / s.blockSize := by
      refine Nat.div_eq_of_lt_le (by omega) ?_
      rw [Nat.add_mul, Nat.one_mul]
      omega
    rw [if_neg hlast, hsame]
    omega

/-- The state after one turn of the write loop, its block cached in `s'`. -/
def afterChunk (buffer : List UInt8) (loc : UInt64) (progress : Nat) (s' : Disk) : Disk :=
  s'.fill (address loc progress % s'.blockSize)
    (slice buffer progress (chunkSize s' loc buffer.length progress))

/-- One turn of the write loop. -/
theorem afterChunk_spec {v buffer : List UInt8} {loc : UInt64} {progress : Nat} {s s' : Disk}
    (h : Coherent s) (haddr : Addressable s.blockSize loc buffer.length)
    (hlt : progress < buffer.length) (h64 : loc.toNat + progress < 2 ^ 64)
    (hlen : v.length = s.device.length) (hv : s.view = splice v loc.toNat (slice buffer 0 progress))
    (hk : Keeps s s') (hc : Coherent s') (hcached : s'.cachedBlock = address loc progress / s.blockSize)
    (hfit : address loc progress / s.blockSize * s.blockSize + s.blockSize ≤ s.device.length) :
    Coherent (afterChunk buffer loc progress s') ∧
    (afterChunk buffer loc progress s').view =
      splice v loc.toNat (slice buffer 0 (progress + chunkSize s loc buffer.length progress)) ∧
    Inside s.whole loc (progress + chunkSize s loc buffer.length progress) ∧
    ∀ S : Nat → Prop, (∀ k, loc.toNat ≤ k → k < loc.toNat + buffer.length → S k) →
      AgreeOff S s.view s.device →
      AgreeOff S (afterChunk buffer loc progress s').view (afterChunk buffer loc progress s').device := by
  have h0 := h.blockSize_pos
  have hne : s'.cachedBlock ≠ noBlock := by
    rw [hcached]
    exact block_ne_noBlock haddr hlt
  obtain ⟨hpos, hcnt, hroom, -⟩ := chunkSize_spec h0 loc hlt
  have hblk := @chunk_block s loc _ h64
  have hfit' : address loc progress / s.blockSize * s.blockSize + s.blockSize ≤ s.whole :=
    block_le_whole h0 hfit
  have hcs : chunkSize s' loc buffer.length progress = chunkSize s loc buffer.length progress := by
    unfold chunkSize
    rw [hk.blockSize]
  unfold afterChunk
  rw [hcs]
  have hplen : (slice buffer progress (chunkSize s loc buffer.length progress)).length =
      chunkSize s loc buffer.length progress := length_slice hcnt
  obtain ⟨hfc, hfv⟩ := fill_spec hc hne
    (by rw [hplen, hk.blockSize]; exact hroom : address loc progress % s'.blockSize +
      (slice buffer progress (chunkSize s loc buffer.length progress)).length ≤ s'.blockSize)
  rw [hcached, hk.blockSize, hk.view, hblk] at hfv
  have hdone : (slice buffer 0 progress).length = progress := length_slice (by omega)
  refine ⟨hfc, ?_, Or.inr (by omega), fun S hS ha => ?_⟩
  · rw [hk.blockSize, hfv, hv]
    have := @splice_append _ v loc.toNat (slice buffer 0 progress)
      (slice buffer progress (chunkSize s loc buffer.length progress)) (by omega)
    rw [hdone] at this
    rw [this]
    have h2 := @slice_append_slice _ buffer 0 progress (chunkSize s loc buffer.length progress) (by omega)
    rw [Nat.zero_add] at h2
    rw [h2]
  · rw [hk.blockSize, hfv]
    refine AgreeOff.trans (AgreeOff.symm (AgreeOff.splice ?_ fun k h1 h2 => hS k ?_ ?_)) ?_
    · rw [hplen, h.length_view]
      omega
    · omega
    · omega
    · rw [← hk.view]
      exact hk.agreeOff ha

theorem writeLoop_spec (v buffer : List UInt8) (loc : UInt64) : ∀ fuel s progress, Coherent s →
    Addressable s.blockSize loc buffer.length → progress ≤ buffer.length →
    buffer.length - progress ≤ fuel → loc.toNat + progress < 2 ^ 64 →
    Inside s.whole loc progress → v.length = s.device.length →
    s.view = splice v loc.toNat (slice buffer 0 progress) →
    WritePost v buffer loc progress s (writeLoop buffer loc fuel s progress) := by
  intro fuel
  induction fuel with
  | zero =>
    intro s progress h _ hle hf _ hin _ hv
    obtain rfl : progress = buffer.length := by omega
    exact .done h hin (by rwa [slice, List.drop_zero, List.take_length] at hv)
  | succ fuel ih =>
    intro s progress h haddr hle hf h64 hin hlen hv
    have h0 := h.blockSize_pos
    unfold writeLoop
    split
    · next hlt =>
      obtain ⟨hk, hc, hok, hsm⟩ := deviceCacheBlock_spec h (block_ne_noBlock haddr hlt)
      have hblock := block_of_inside h0 h64 hlt
      have hblocks := blocksFrom_step h0 h64 hlt
      rcases hcb : deviceCacheBlock s (address loc progress / s.blockSize) with ⟨ok, s'⟩
      rw [hcb] at hk hc hok hsm
      dsimp only at hk hc hok hsm ⊢
      cases ok with
      | false =>
        refine ⟨hk.same h, hc, fun h => absurd h (by simp), fun S _ ha => hk.agreeOff ha,
          fun hI n hs => absurd (hsm (hblock hI) 0 (hs.mono ?_)).1 (by simp)⟩
        omega
      | true =>
        obtain ⟨hcached, hfit⟩ := hok rfl
        obtain ⟨hfc, hfv, hfin, hstale⟩ := afterChunk_spec h haddr hlt h64 hlen hv hk hc hcached hfit
        have hdev := hk.length_device h
        have hsame : Same s (afterChunk buffer loc progress s') :=
          ⟨hk.blockSize, hdev, hk.uninstalling, hk.uninstallData⟩
        have hcs : chunkSize s' loc buffer.length progress = chunkSize s loc buffer.length progress := by
          unfold chunkSize
          rw [hk.blockSize]
        obtain ⟨hpos, hcnt, -, -⟩ := chunkSize_spec h0 loc hlt
        have hdl := h.device_lt
        have hw : s.whole ≤ s.device.length := Nat.div_mul_le_self _ _
        have hnext := ih (afterChunk buffer loc progress s')
          (progress + chunkSize s loc buffer.length progress) hfc (hsame.blockSize.symm ▸ haddr) hcnt
          (by omega) (by rcases hfin with hz | hz <;> omega) (hsame.whole.symm ▸ hfin)
          (hlen.trans hsame.length.symm) hfv
        show WritePost v buffer loc progress s (writeLoop buffer loc fuel
          (afterChunk buffer loc progress s') (progress + chunkSize s' loc buffer.length progress))
        rw [hcs]
        refine ⟨hsame.trans hnext.same, hnext.coherent, fun h' => ?_, fun S hS ha => ?_,
          fun hI n hs => ?_⟩
        · have := hnext.written h'
          rwa [hsame.whole] at this
        · exact hnext.stale S hS (hstale S hS ha)
        · refine hnext.ok (hsame.whole.symm ▸ hI) n ?_
          rw [hsame.blockSize]
          refine (hsm (hblock hI) _ (hs.mono ?_)).2
          omega
    · obtain rfl : progress = buffer.length := by omega
      exact .done h hin (by rwa [slice, List.drop_zero, List.take_length] at hv)

end Limine.Host
