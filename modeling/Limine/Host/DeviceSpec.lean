import Limine.Host.Device

/-!
# What the block cache does

`Disk.view` is the device as the tool sees it: the device, with the cached block over it while
that is dirty.  Reading blocks leaves the view alone, whichever operation fails, and puts into
the device nothing but the view; `device_write_raw` writes the view.
-/

namespace Limine.Host

open Limine.Lib

/-- The device as it would be once the cache is flushed. -/
def Disk.view (s : Disk) : List UInt8 :=
  match s.cacheState with
  | .clean => s.device
  | .dirty => splice s.device (s.cachedBlock * s.blockSize) s.cache

structure Coherent (s : Disk) : Prop where
  blockSize_pos : 0 < s.blockSize
  device_lt : s.device.length < 2 ^ 64
  cache_length : s.cache.length = s.blockSize
  inside : s.cachedBlock ≠ noBlock → s.cachedBlock * s.blockSize + s.blockSize ≤ s.device.length
  cached : s.cachedBlock ≠ noBlock → slice s.view (s.cachedBlock * s.blockSize) s.blockSize = s.cache
  dirty : s.cacheState = .dirty → s.cachedBlock ≠ noBlock

theorem Coherent.fits {s : Disk} (h : Coherent s) (hb : s.cachedBlock ≠ noBlock) :
    s.cachedBlock * s.blockSize + s.cache.length ≤ s.device.length := by
  rw [h.cache_length]
  exact h.inside hb

theorem Coherent.length_view {s : Disk} (h : Coherent s) : s.view.length = s.device.length := by
  unfold Disk.view
  split
  · rfl
  · next hd => exact length_splice (h.fits (h.dirty hd))

/-- The view is the device under the cached block, dirty or not. -/
theorem Coherent.view_eq {s : Disk} (h : Coherent s) (hb : s.cachedBlock ≠ noBlock) :
    s.view = splice s.device (s.cachedBlock * s.blockSize) s.cache := by
  have hc := h.cached hb
  unfold Disk.view at hc ⊢
  split
  · next hs =>
    rw [hs] at hc
    rw [← hc, splice_slice_self (h.inside hb)]
  · rfl

/-- Bytes in whole blocks, the ones that can be read. -/
def Disk.whole (s : Disk) : Nat := s.device.length / s.blockSize * s.blockSize

/-- The next `n` operations succeed. -/
def Smooth (n : Nat) (s : Disk) : Prop := ∀ f ∈ s.faults.take n, f = Fault.none

theorem Smooth.mono {n n' : Nat} {s : Disk} (h : Smooth n s) (hn : n' ≤ n) : Smooth n' s :=
  fun f hf => h f ((List.take_sublist_take_left hn).subset hf)

theorem Smooth.nextFault {n : Nat} {s : Disk} (h : Smooth (n + 1) s) : s.nextFault = .none := by
  unfold Disk.nextFault
  cases hf : s.faults with
  | nil => rfl
  | cons f fs => exact h f (by rw [hf]; exact List.mem_cons_self)

theorem Smooth.tick {n : Nat} {s : Disk} (h : Smooth (n + 1) s) : Smooth n s.tick := by
  unfold Smooth at h ⊢
  unfold Disk.tick
  intro f hf
  cases hs : s.faults with
  | nil => simp [hs] at hf
  | cons g fs =>
    rw [hs] at h hf
    exact h f (List.mem_cons_of_mem _ hf)

/-- What an operation that only moves blocks keeps; the device is left alone or becomes the view. -/
structure Keeps (s s' : Disk) : Prop where
  view : s'.view = s.view
  device : s'.device = s.device ∨ s'.device = s.view
  blockSize : s'.blockSize = s.blockSize
  uninstalling : s'.uninstalling = s.uninstalling
  uninstallData : s'.uninstallData = s.uninstallData

theorem Keeps.refl (s : Disk) : Keeps s s := ⟨rfl, Or.inl rfl, rfl, rfl, rfl⟩

theorem Keeps.trans {s s' s'' : Disk} (h : Keeps s s') (h' : Keeps s' s'') : Keeps s s'' := by
  refine ⟨h'.view.trans h.view, ?_, h'.blockSize.trans h.blockSize,
    h'.uninstalling.trans h.uninstalling, h'.uninstallData.trans h.uninstallData⟩
  rcases h'.device with hd | hd
  · rw [hd]
    exact h.device
  · exact Or.inr (hd.trans h.view)

theorem Keeps.length_device {s s' : Disk} (hc : Coherent s) (h : Keeps s s') :
    s'.device.length = s.device.length := by
  rcases h.device with hd | hd
  · rw [hd]
  · rw [hd, hc.length_view]

theorem Keeps.whole {s s' : Disk} (hc : Coherent s) (h : Keeps s s') : s'.whole = s.whole := by
  unfold Disk.whole
  rw [h.length_device hc, h.blockSize]

/-- Device and view still agree off `S`. -/
theorem Keeps.agreeOff {S : Nat → Prop} {s s' : Disk} (h : Keeps s s')
    (ha : AgreeOff S s.view s.device) : AgreeOff S s'.view s'.device := by
  rw [h.view]
  rcases h.device with hd | hd
  · rw [hd]
    exact ha
  · rw [hd]
    exact AgreeOff.refl _ _

theorem Coherent.tick {s : Disk} (h : Coherent s) : Coherent s.tick :=
  ⟨h.blockSize_pos, h.device_lt, h.cache_length, h.inside, h.cached, h.dirty⟩

theorem Keeps.tick (s : Disk) : Keeps s s.tick := ⟨rfl, Or.inl rfl, rfl, rfl, rfl⟩

/-! ## Flushing and caching a block -/

theorem deviceFlushCache_spec {s : Disk} (h : Coherent s) :
    Keeps s (deviceFlushCache s).2 ∧ Coherent (deviceFlushCache s).2 ∧
    ((deviceFlushCache s).1 = true → (deviceFlushCache s).2.cacheState = .clean ∧
      (deviceFlushCache s).2.device = s.view) ∧
    ((deviceFlushCache s).1 = false → (deviceFlushCache s).2.device = s.device) ∧
    ∀ n, Smooth (n + 1) s → (deviceFlushCache s).1 = true ∧ Smooth n (deviceFlushCache s).2 := by
  unfold deviceFlushCache
  split
  · next hc =>
    exact ⟨Keeps.refl s, h, fun _ => ⟨hc, by unfold Disk.view; rw [hc]⟩, fun h => absurd h (by simp),
      fun n hs => ⟨rfl, hs.mono (by omega)⟩⟩
  next hc =>
  have hd : s.cacheState = .dirty := by
    cases hs : s.cacheState with
    | clean => exact absurd hs hc
    | dirty => rfl
  split
  · next hf =>
    exact ⟨Keeps.tick s, h.tick, fun h => absurd h (by simp), fun _ => rfl,
      fun n hs => absurd hs.nextFault hf⟩
  · have hv : s.view = splice s.device (s.cachedBlock * s.blockSize) s.cache := by
      unfold Disk.view
      rw [hd]
    have hb := h.dirty hd
    have hlen := length_splice (h.fits hb)
    dsimp only
    refine ⟨⟨hv.symm, Or.inr hv.symm, rfl, rfl, rfl⟩, ⟨h.blockSize_pos, ?_, h.cache_length, ?_, ?_, ?_⟩,
      fun _ => ⟨rfl, hv.symm⟩, fun h => absurd h (by simp), fun n hs => ⟨rfl, hs.tick⟩⟩
    · show (splice _ _ _).length < _
      rw [hlen]
      exact h.device_lt
    · intro hb
      exact Nat.le_trans (h.inside hb) (Nat.le_of_eq hlen.symm)
    · intro hb
      show slice (splice _ _ _) _ _ = s.cache
      rw [← hv]
      exact h.cached hb
    · exact fun h => absurd h (by simp)

theorem length_blockRead_le {s : Disk} (h : Coherent s) (block : Nat) (fault : Fault) :
    (blockRead s block fault).length ≤ s.blockSize := by
  have := h.blockSize_pos
  unfold blockRead
  split
  all_goals
    unfold slice
    rw [List.length_take, List.length_drop]
    omega

/-- A block read is whole only without a fault and inside the device. -/
theorem blockRead_whole {s : Disk} (h : Coherent s) {block : Nat} {fault : Fault}
    (hl : (blockRead s block fault).length = s.blockSize) :
    block * s.blockSize + s.blockSize ≤ s.device.length ∧
      blockRead s block fault = slice s.device (block * s.blockSize) s.blockSize := by
  have := h.blockSize_pos
  unfold blockRead at hl ⊢
  split at hl
  · unfold slice at hl
    rw [List.length_take, List.length_drop] at hl
    omega
  · unfold slice at hl
    rw [List.length_take, List.length_drop] at hl
    exact ⟨by omega, rfl⟩

theorem fetchBlock_spec {s : Disk} (h : Coherent s) (hclean : s.cacheState = .clean) (block : Nat) :
    Keeps s (fetchBlock s block).2 ∧ Coherent (fetchBlock s block).2 ∧
    ((fetchBlock s block).1 = true → (fetchBlock s block).2.cachedBlock = block ∧
      block * s.blockSize + s.blockSize ≤ s.device.length) ∧
    (block * s.blockSize + s.blockSize ≤ s.device.length → ∀ n, Smooth (n + 1) s →
      (fetchBlock s block).1 = true ∧ Smooth n (fetchBlock s block).2) := by
  have hle := length_blockRead_le h block s.nextFault
  have hlen : (blockRead s block s.nextFault ++
      s.cache.drop (blockRead s block s.nextFault).length).length = s.blockSize := by
    rw [List.length_append, List.length_drop, h.cache_length]
    omega
  have hview : ∀ b c, Disk.view { s.tick with cachedBlock := b, cache := c } = s.device := by
    intro b c
    unfold Disk.view Disk.tick
    simp only [hclean]
  have hsview : s.view = s.device := by
    unfold Disk.view
    rw [hclean]
  have hkeeps : ∀ b c, Keeps s { s.tick with cachedBlock := b, cache := c } := fun b c =>
    ⟨(hview b c).trans hsview.symm, Or.inl rfl, rfl, rfl, rfl⟩
  unfold fetchBlock
  split
  · next hf =>
    refine ⟨Keeps.tick s, h.tick, fun h => absurd h (by simp), fun _ n hs => ?_⟩
    rw [hs.nextFault] at hf
    cases hf
  dsimp only
  split
  · next hshort =>
    refine ⟨hkeeps _ _, ⟨h.blockSize_pos, h.device_lt, hlen, fun h => absurd rfl h,
      fun h => absurd rfl h, fun hd => absurd (hclean.symm.trans hd) (by simp)⟩,
      fun h => absurd h (by simp), fun hin n hs => ?_⟩
    refine absurd ?_ hshort
    rw [hs.nextFault]
    exact length_slice hin
  · next hfull =>
    obtain ⟨hin, hdata⟩ := blockRead_whole h (not_not.mp hfull)
    refine ⟨hkeeps _ _, ⟨h.blockSize_pos, h.device_lt, hlen, fun _ => hin, fun _ => ?_,
      fun hd => absurd (hclean.symm.trans hd) (by simp)⟩, fun _ => ⟨rfl, hin⟩,
      fun _ n hs => ⟨rfl, hs.tick⟩⟩
    rw [hview]
    show slice s.device (block * s.blockSize) s.blockSize = _ ++ s.cache.drop _
    rw [hdata, length_slice hin, ← h.cache_length, List.drop_length, List.append_nil]

theorem deviceCacheBlock_spec {s : Disk} (h : Coherent s) {block : Nat} (hb : block ≠ noBlock) :
    Keeps s (deviceCacheBlock s block).2 ∧ Coherent (deviceCacheBlock s block).2 ∧
    ((deviceCacheBlock s block).1 = true → (deviceCacheBlock s block).2.cachedBlock = block ∧
      block * s.blockSize + s.blockSize ≤ s.device.length) ∧
    (block * s.blockSize + s.blockSize ≤ s.device.length → ∀ n, Smooth (n + 2) s →
      (deviceCacheBlock s block).1 = true ∧ Smooth n (deviceCacheBlock s block).2) := by
  unfold deviceCacheBlock
  split
  · next he =>
    subst he
    exact ⟨Keeps.refl s, h, fun _ => ⟨rfl, h.inside hb⟩, fun _ n hs => ⟨rfl, hs.mono (by omega)⟩⟩
  split
  · obtain ⟨hk, hc, hok, -, hs⟩ := deviceFlushCache_spec h
    rcases hf : deviceFlushCache s with ⟨ok, s'⟩
    rw [hf] at hk hc hok hs
    dsimp only at hk hc hok hs
    cases ok with
    | false => exact ⟨hk, hc, fun h => absurd h (by simp), fun _ n h => absurd (hs (n + 1) h).1 (by simp)⟩
    | true =>
      obtain ⟨hk', hc', hok', hs'⟩ := fetchBlock_spec hc (hok rfl).1 block
      rw [hk.blockSize, hk.length_device h] at hok' hs'
      exact ⟨hk.trans hk', hc', hok', fun hin n h => hs' hin n (hs (n + 1) h).2⟩
  · next hd =>
    have hclean : s.cacheState = .clean := by
      cases hs : s.cacheState with
      | clean => rfl
      | dirty => exact absurd hs hd
    obtain ⟨hk, hc, hok, hs⟩ := fetchBlock_spec h hclean block
    exact ⟨hk, hc, hok, fun hin n h => hs hin n (h.mono (by omega))⟩

end Limine.Host
