import Limine.Host.RawSpec

/-!
# Undoing an install

The uninstall data, newest entry first, is an undo log of the view.  A dirty cache is given up by
`uninstall`, which is harmless: view and device differ only where an entry lies.
-/

namespace Limine.Host

open Limine.Lib

def UninstallData.toPatch (ud : UninstallData) : Patch UInt8 := ⟨ud.loc.toNat, ud.data⟩

/-- The undo log, newest entry first. -/
def Disk.log (s : Disk) : List (Patch UInt8) := s.uninstallData.reverse.map UninstallData.toPatch

/-- What `uninstall` needs to take the device back to `d`. -/
structure Restorable (d : List UInt8) (s : Disk) : Prop where
  blockSize_pos : 0 < s.blockSize
  device_lt : s.device.length < 2 ^ 64
  cache_length : s.cache.length = s.blockSize
  recovers : Recovers s.log d s.device
  inside : ∀ ud ∈ s.uninstallData, Inside s.whole ud.loc ud.count

theorem Inside.addressable {n : Nat} {loc : UInt64} {count : Nat} (h : Inside n loc count)
    (hn : n < 2 ^ 64) (blockSize : Nat) : Addressable blockSize loc count := by
  have := loc.toNat_lt
  unfold Addressable
  rcases h with h | h <;> omega

theorem whole_le (s : Disk) : s.whole ≤ s.device.length := Nat.div_mul_le_self _ _

/-- The write loop from its start. -/
theorem writeLoop_start {s : Disk} (h : Coherent s) {loc : UInt64} {buffer : List UInt8}
    (haddr : Addressable s.blockSize loc buffer.length) :
    WritePost s.view buffer loc 0 s (writeLoop buffer loc buffer.length s 0) :=
  writeLoop_spec s.view buffer loc buffer.length s 0 h haddr (Nat.zero_le _) (Nat.sub_le _ _)
    loc.toNat_lt (Or.inl rfl) h.length_view (by simp [slice, splice_nil])

theorem uninstallLoop_spec : ∀ (uds : List UninstallData) (s : Disk), Coherent s →
    s.uninstalling = true → (∀ n, Smooth n s) → (∀ ud ∈ uds, Inside s.whole ud.loc ud.count) →
    ∃ s', uninstallLoop s uds = (s', false, false) ∧ Coherent s' ∧ (∀ n, Smooth n s') ∧
      s'.view = undoAll (uds.map UninstallData.toPatch) s.view := by
  intro uds
  induction uds with
  | nil => intro s h _ hs _; exact ⟨s, rfl, h, hs, rfl⟩
  | cons ud uds ih =>
    intro s h hu hs hin
    obtain ⟨hud, hin⟩ := List.forall_mem_cons.mp hin
    have hpost := writeLoop_start h
      (hud.addressable (Nat.lt_of_le_of_lt (whole_le s) h.device_lt) s.blockSize)
    have hok : ∀ n, _ := fun n => hpost.ok hud n (hs _)
    have hwrite : deviceWriteRaw s ud.data ud.loc = writeLoop ud.data ud.loc ud.data.length s 0 := by
      unfold deviceWriteRaw
      rw [if_pos hu]
    rcases hw : writeLoop ud.data ud.loc ud.data.length s 0 with ⟨ok, s'⟩
    rw [hw] at hpost hok
    obtain rfl : ok = true := (hok 0).1
    obtain ⟨s'', hloop, hc, hs', hv⟩ := ih s' hpost.coherent (hpost.same.uninstalling.trans hu)
      (fun n => (hok n).2) (by rw [hpost.same.whole]; exact hin)
    refine ⟨s'', ?_, hc, hs', ?_⟩
    · unfold uninstallLoop uninstallEntry
      rw [hwrite, hw]
      dsimp only
      rw [hloop]
      rfl
    · rw [hv, (hpost.written rfl).1]
      rfl

/-- **Undo.**  If no operation fails, `uninstall` takes the device back to where the log began. -/
theorem uninstall_spec {d : List UInt8} {s : Disk} (h : Restorable d s) (hs : ∀ n, Smooth n s) :
    ∃ s', uninstall (reverseUninstallData s) = (true, s') ∧ s'.device = d := by
  -- the cache is given up, so the view is the device
  have hc : Coherent (reverseUninstallData s).beginUninstall :=
    ⟨h.blockSize_pos, h.device_lt, h.cache_length, fun h => absurd rfl h, fun h => absurd rfl h,
      fun h => absurd h (by simp [Disk.beginUninstall, Disk.dropCache])⟩
  obtain ⟨s₁, hloop, hc₁, hs₁, hv⟩ := uninstallLoop_spec s.uninstallData.reverse _ hc rfl hs
    fun ud hud => h.inside ud (List.mem_reverse.mp hud)
  obtain ⟨-, -, hflush, -, hsm⟩ := deviceFlushCache_spec hc₁
  have hok := (hsm 0 (hs₁ 1)).1
  refine ⟨(deviceFlushCache s₁).2, ?_, ?_⟩
  · have hrun : ∀ r, uninstallLoop (reverseUninstallData s).beginUninstall
        s.uninstallData.reverse = r → uninstall (reverseUninstallData s) =
          (!r.2.1 && !r.2.2 && (deviceFlushCache r.1).1, (deviceFlushCache r.1).2) := by
      rintro r rfl
      rfl
    rw [hrun _ hloop]
    dsimp only
    rw [hok]
    rfl
  · rw [(hflush hok).2, hv]
    exact h.recovers.undo

/-! ## What a write leaves behind -/

/-- The invariant of an install: the log takes the view back to `d`, and the device differs from
the view only where the log has entries. -/
structure Installing (d : List UInt8) (s : Disk) : Prop where
  coherent : Coherent s
  installing : s.uninstalling = false
  recovers : Recovers s.log d s.view
  stale : AgreeOff (Touched s.log) s.view s.device
  inside : ∀ ud ∈ s.uninstallData, Inside s.whole ud.loc ud.count

theorem Installing.restorable {d : List UInt8} {s : Disk} (h : Installing d s) : Restorable d s :=
  ⟨h.coherent.blockSize_pos, h.coherent.device_lt, h.coherent.cache_length,
    h.recovers.of_agreeOff h.stale, h.inside⟩

theorem Keeps.log {s s' : Disk} (h : Keeps s s') : s'.log = s.log := by
  unfold Disk.log
  rw [h.uninstallData]

theorem Installing.keeps {d : List UInt8} {s s' : Disk} (h : Installing d s) (hk : Keeps s s')
    (hc : Coherent s') : Installing d s' := by
  refine ⟨hc, hk.uninstalling.trans h.installing, ?_, ?_, ?_⟩
  · rw [hk.log, hk.view]
    exact h.recovers
  · rw [hk.log]
    exact hk.agreeOff h.stale
  · rw [hk.uninstallData, hk.whole h.coherent]
    exact h.inside

/-- A write that returns true is logged. -/
theorem deviceWriteRaw_logged {d : List UInt8} {s : Disk} (h : Installing d s) {loc : UInt64}
    {buffer : List UInt8} (haddr : Addressable s.blockSize loc buffer.length)
    (hok : (deviceWriteRaw s buffer loc).1 = true) : Installing d (deviceWriteRaw s buffer loc).2 := by
  have hread := deviceReadRaw_spec h.coherent haddr
  unfold deviceWriteRaw at hok ⊢
  rw [if_neg (by simp [h.installing])] at hok ⊢
  split
  · next hmax =>
    rw [if_pos hmax] at hok
    cases hok
  next hmax =>
  rw [if_neg hmax] at hok
  rcases hr : deviceReadRaw s loc buffer.length with ⟨ok, s', data⟩
  rw [hr] at hok hread
  cases ok with
  | false => cases hok
  | true =>
    have hi := h.keeps hread.keeps hread.coherent
    obtain ⟨hdata, hin⟩ := hread.read rfl
    have hw := writeLoop_start hi.coherent
      (hread.keeps.blockSize.symm ▸ haddr : Addressable s'.blockSize loc buffer.length)
    dsimp only at hok hdata hi hw ⊢
    rcases hl : writeLoop buffer loc buffer.length s' 0 with ⟨ok, s''⟩
    rw [hl] at hok hw
    cases ok with
    | false => cases hok
    | true =>
      obtain ⟨hview, hin'⟩ := hw.written rfl
      have hsame := hw.same
      dsimp only at hview hsame ⊢
      have hsub := whole_le s'
      -- the new entry's patch is in front of the log
      have hlog : Disk.log { s'' with uninstallData := s''.uninstallData ++ [⟨data, loc⟩] } =
          ⟨loc.toNat, slice s'.view loc.toNat buffer.length⟩ :: s'.log := by
        unfold Disk.log
        rw [hsame.uninstallData, List.reverse_append, hdata, ← hread.keeps.view]
        rfl
      have hfit : buffer = [] ∨ loc.toNat + buffer.length ≤ s'.view.length := by
        rw [hi.coherent.length_view]
        rcases hin' with hz | hz
        · exact Or.inl (List.eq_nil_of_length_eq_zero hz)
        · exact Or.inr (by omega)
      refine ⟨⟨hw.coherent.blockSize_pos, hw.coherent.device_lt, hw.coherent.cache_length,
        hw.coherent.inside, hw.coherent.cached, hw.coherent.dirty⟩, hsame.uninstalling.trans hi.installing,
        ?_, ?_, ?_⟩
      · rw [hlog]
        show Recovers _ d s''.view
        rw [hview]
        exact hi.recovers.write hfit
      · rw [hlog]
        refine hw.stale _ (fun k h1 h2 => ⟨_, List.mem_cons_self, h1, ?_⟩)
          (hi.stale.mono fun k ⟨p, hp, hk⟩ => ⟨p, List.mem_cons_of_mem _ hp, hk⟩)
        rw [length_slice (hfit.resolve_left fun hz => by rw [hz, List.length_nil] at h2; omega)]
        exact h2
      · intro ud hud
        show Inside s''.whole ud.loc ud.count
        rw [hsame.whole]
        rcases List.mem_append.mp hud with hud | hud
        · exact hi.inside ud (hsame.uninstallData ▸ hud)
        · obtain rfl := List.mem_singleton.mp hud
          show Inside s'.whole loc data.length
          rw [hdata]
          rcases hin with hz | hz
          · exact Or.inl (by simp [slice, hz])
          · rw [length_slice (by have := whole_le s; have := h.coherent.length_view; omega),
              hread.keeps.whole h.coherent]
            exact Or.inr hz

/-- A write that fails or not leaves the device its size. -/
theorem deviceWriteRaw_size {s : Disk} (h : Coherent s) {loc : UInt64} {buffer : List UInt8}
    (haddr : Addressable s.blockSize loc buffer.length) :
    (deviceWriteRaw s buffer loc).2.blockSize = s.blockSize ∧
      (deviceWriteRaw s buffer loc).2.device.length = s.device.length := by
  have hread := deviceReadRaw_spec h haddr
  have hloop : ∀ s', Coherent s' → Addressable s'.blockSize loc buffer.length →
      Same s' (writeLoop buffer loc buffer.length s' 0).2 := fun s' hc ha => (writeLoop_start hc ha).same
  unfold deviceWriteRaw
  split
  · exact ⟨(hloop s h haddr).blockSize, (hloop s h haddr).length⟩
  split
  · exact ⟨rfl, rfl⟩
  rcases hr : deviceReadRaw s loc buffer.length with ⟨ok, s', data⟩
  rw [hr] at hread
  have hk := hread.keeps
  have hlen := hk.length_device h
  dsimp only at hk hlen
  cases ok with
  | false => exact ⟨hk.blockSize, hlen⟩
  | true =>
    have hw := hloop s' hread.coherent (hk.blockSize.symm ▸ haddr)
    dsimp only
    rcases hl : writeLoop buffer loc buffer.length s' 0 with ⟨ok, s''⟩
    rw [hl] at hw
    cases ok with
    | false => exact ⟨hw.blockSize.trans hk.blockSize, hw.length.trans hlen⟩
    | true => exact ⟨hw.blockSize.trans hk.blockSize, hw.length.trans hlen⟩

/-- A write inside the device, while there is room in the log and nothing fails. -/
theorem deviceWriteRaw_ok {d : List UInt8} {s : Disk} (h : Installing d s) {loc : UInt64}
    {buffer : List UInt8} (hin : Inside s.whole loc buffer.length) (hs : ∀ n, Smooth n s)
    (hroom : s.uninstallData.length < uninstallDataMax) :
    (deviceWriteRaw s buffer loc).1 = true ∧ (∀ n, Smooth n (deviceWriteRaw s buffer loc).2) ∧
    ∃ data, data.length = buffer.length ∧
      (deviceWriteRaw s buffer loc).2.uninstallData = s.uninstallData ++ [⟨data, loc⟩] := by
  have haddr := hin.addressable (Nat.lt_of_le_of_lt (whole_le s) h.coherent.device_lt) s.blockSize
  have hread := deviceReadRaw_spec h.coherent haddr
  obtain ⟨hrok, hrs⟩ := hread.ok hin hs
  unfold deviceWriteRaw
  rw [if_neg (by simp [h.installing]), if_neg (by omega)]
  rcases hr : deviceReadRaw s loc buffer.length with ⟨ok, s', data⟩
  rw [hr] at hread hrok hrs
  obtain rfl : ok = true := hrok
  have hdata := (hread.read rfl).1
  dsimp only at hdata hrs ⊢
  have hw := writeLoop_start hread.coherent
    (hread.keeps.blockSize.symm ▸ haddr : Addressable s'.blockSize loc buffer.length)
  have hwok := hw.ok (by rw [hread.keeps.whole h.coherent]; exact hin)
  rcases hl : writeLoop buffer loc buffer.length s' 0 with ⟨ok, s''⟩
  dsimp only at hw hwok
  rw [hl] at hw hwok
  obtain rfl : ok = true := (hwok 0 (hrs _)).1
  refine ⟨rfl, fun n => (hwok n (hrs _)).2, data, ?_, ?_⟩
  · rw [hdata]
    rcases hin with hz | hz
    · simp [slice, hz]
    · exact length_slice (by have := whole_le s; have := h.coherent.length_view; omega)
  · show s''.uninstallData ++ _ = _
    rw [hw.same.uninstallData, hread.keeps.uninstallData]

/-! ## The uninstall data file -/

theorem freadItem_append {n : Nat} {item : List UInt8} (h0 : n ≠ 0) (h : item.length = n)
    (rest : List UInt8) : freadItem n (item ++ rest) = some (item, rest) := by
  unfold freadItem
  rw [if_neg (by rw [List.length_append]; omega), ← h, List.take_left, List.drop_left]

theorem fwriteItem_eq {item : List UInt8} (h : item ≠ []) : fwriteItem item = some item := if_neg h

theorem leBytes_ne_nil (n x : Nat) : leBytes (n + 1) x ≠ [] := List.cons_ne_nil _ _

/-- The entry at the front of a file is read as it was laid out. -/
theorem loadEntries_append (n : Nat) {loc count data : List UInt8} (rest : List UInt8)
    (hl : loc.length = 8) (hc : count.length = 8) (hn : leNat count = data.length) (hne : data ≠ []) :
    loadEntries (n + 1) (loc ++ count ++ data ++ rest) =
      (loadEntries n rest).map fun uds => ⟨data, UInt64.ofNat (leNat loc)⟩ :: uds := by
  have h1 := freadItem_append (by decide) hl (count ++ (data ++ rest))
  have h2 := freadItem_append (by decide) hc (data ++ rest)
  have h3 := freadItem_append (fun hz => hne (List.eq_nil_of_length_eq_zero (hn ▸ hz))) hn.symm rest
  rw [loadEntries, List.append_assoc, List.append_assoc, h1, Option.bind_eq_bind, Option.bind_some]
  dsimp only
  rw [h2, Option.bind_some]
  dsimp only
  rw [h3, Option.bind_some]
  dsimp only
  cases loadEntries n rest with
  | none => rfl
  | some uds => rfl

/-- Entries that replace something are read back as they were written. -/
theorem loadEntries_storeEntries : ∀ uds : List UninstallData,
    (∀ ud ∈ uds, ud.data ≠ [] ∧ ud.count < 2 ^ 64) →
    ∃ file, storeEntries uds = some file ∧ loadEntries uds.length file = some uds := by
  intro uds
  induction uds with
  | nil => intro _; exact ⟨[], rfl, rfl⟩
  | cons ud uds ih =>
    intro h
    obtain ⟨⟨hne, h64⟩, h⟩ := List.forall_mem_cons.mp h
    obtain ⟨rest, hstore, hload⟩ := ih h
    refine ⟨leBytes 8 ud.loc.toNat ++ leBytes 8 ud.count ++ ud.data ++ rest, ?_, ?_⟩
    · rw [storeEntries, fwriteItem_eq (leBytes_ne_nil 7 _), fwriteItem_eq (leBytes_ne_nil 7 _),
        fwriteItem_eq hne, hstore]
      simp only [Option.bind_eq_bind, Option.bind_some, Option.pure_def]
    · have hcount : leNat (leBytes 8 ud.count) = ud.data.length := leNat_leBytes h64
      rw [List.length_cons, loadEntries_append _ rest (length_leBytes 8 _) (length_leBytes 8 _) hcount hne,
        hload, leNat_leBytes ud.loc.toNat_lt, UInt64.ofNat_toNat, Option.map_some]

theorem load_store {s : Disk} (h : ∀ ud ∈ s.uninstallData, ud.data ≠ [] ∧ ud.count < 2 ^ 64)
    (hmax : s.uninstallData.length ≤ uninstallDataMax) :
    ∃ file, storeUninstallData s = some file ∧
      ∀ s', loadUninstallData s' file = some { s' with uninstallData := s.uninstallData } := by
  obtain ⟨file, hstore, hload⟩ := loadEntries_storeEntries s.uninstallData h
  have hlen : leNat (leBytes 8 s.uninstallData.length) = s.uninstallData.length :=
    leNat_leBytes (Nat.lt_of_le_of_lt hmax (by decide))
  refine ⟨leBytes 8 s.uninstallData.length ++ file, ?_, fun s' => ?_⟩
  · rw [storeUninstallData, fwriteItem_eq (leBytes_ne_nil 7 _), hstore]
    simp only [Option.bind_eq_bind, Option.bind_some, Option.pure_def]
  · rw [loadUninstallData, freadItem_append (by decide) (length_leBytes 8 _), Option.bind_eq_bind,
      Option.bind_some]
    dsimp only
    rw [hlen, if_neg (by omega), hload, Option.bind_eq_bind, Option.bind_some, Option.pure_def]

end Limine.Host
