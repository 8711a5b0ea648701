import Limine.Host.Undo

/-!
# Runs of an install

A run is a sequence of reads, writes and flushes that stops at the first write or flush that
fails; what is done after it is `reverse_uninstall_data` and `uninstall`.  A write is logged when
it returns, so the one kind of failure that is not undone is a write that fails after a block of
its own has been flushed (`Torn`).
-/

namespace Limine.Host

open Limine.Lib

inductive Op
  | read (loc : UInt64) (count : Nat)
  | write (loc : UInt64) (buffer : List UInt8)
  | flush
deriving DecidableEq, Repr

namespace Op

def isRead : Op → Bool
  | .read .. => true
  | _ => false

def isWrite : Op → Bool
  | .write .. => true
  | _ => false

/-- The extent lies in the first `n` bytes. -/
def Inside (n : Nat) : Op → Prop
  | .read loc count => Host.Inside n loc count
  | .write loc buffer => Host.Inside n loc buffer.length
  | .flush => True

instance (n : Nat) : (op : Op) → Decidable (op.Inside n)
  | .read loc count => inferInstanceAs (Decidable (Host.Inside n loc count))
  | .write loc buffer => inferInstanceAs (Decidable (Host.Inside n loc buffer.length))
  | .flush => inferInstanceAs (Decidable True)

def Addressable (blockSize : Nat) : Op → Prop
  | .read loc count => Host.Addressable blockSize loc count
  | .write loc buffer => Host.Addressable blockSize loc buffer.length
  | .flush => True

theorem addressable_of_lt {blockSize : Nat} (h1 : 1 < blockSize) (op : Op) : op.Addressable blockSize := by
  cases op with
  | read => exact Or.inl h1
  | write => exact Or.inl h1
  | flush => trivial

theorem Inside.addressable {n : Nat} {op : Op} (h : op.Inside n) (hn : n < 2 ^ 64) (blockSize : Nat) :
    op.Addressable blockSize := by
  cases op with
  | read => exact Host.Inside.addressable h hn blockSize
  | write => exact Host.Inside.addressable h hn blockSize
  | flush => trivial

theorem isWrite_of_isRead {op : Op} (h : op.isRead = true) : op.isWrite = false := by
  cases op with
  | read => rfl
  | write => cases h
  | flush => rfl

end Op

def step (s : Disk) : Op → Bool × Disk
  | .read loc count => ((deviceReadRaw s loc count).1, (deviceReadRaw s loc count).2.1)
  | .write loc buffer => deviceWriteRaw s buffer loc
  | .flush => deviceFlushCache s

/-- What the calls of a run return, and the state it ends in. -/
def run : List Op → Disk → List Bool × Disk
  | [], s => ([], s)
  | op :: ops, s =>
    match step s op with
    | (true, s) => (true :: (run ops s).1, (run ops s).2)
    | (false, s) =>
      if op.isRead then (false :: (run ops s).1, (run ops s).2) else ([false], s)

/-! ## Torn writes -/

/-- The state in which the write loop has cached its first block, `none` if it does not get there. -/
def atFirstBlock (s : Disk) (loc : UInt64) (count : Nat) : Option Disk :=
  match deviceReadRaw s loc count with
  | (false, _, _) => none
  | (true, s, _) =>
    match deviceCacheBlock s (loc.toNat / s.blockSize) with
    | (false, _) => none
    | (true, s) => some s

/-- The write meets several blocks, flushes the first one and then has an operation fail. -/
def Torn (s : Disk) (loc : UInt64) (count : Nat) : Prop :=
  ∃ s', atFirstBlock s loc count = some s' ∧ s'.nextFault = .none ∧
    ¬ Smooth (2 * (blocksFrom s.blockSize loc count 0 - 1)) s'

theorem Same.log {s s' : Disk} (h : Same s s') : s'.log = s.log := by
  unfold Disk.log
  rw [h.uninstallData]

/-- The next chunk lies in the next block. -/
theorem address_afterChunk {s : Disk} (h0 : 0 < s.blockSize) {loc : UInt64} {count progress : Nat}
    (h64 : loc.toNat + progress < 2 ^ 64) (hp : progress < count)
    (hmore : progress + chunkSize s loc count progress < count)
    (hfit : address loc progress / s.blockSize * s.blockSize + s.blockSize < 2 ^ 64) :
    address loc (progress + chunkSize s loc count progress) / s.blockSize =
      address loc progress / s.blockSize + 1 := by
  obtain ⟨-, -, -, hend⟩ := chunkSize_spec h0 loc hp
  have hblk := @chunk_block s loc _ h64
  generalize chunkSize s loc count progress = chunk at *
  have hnext : loc.toNat + (progress + chunk) =
      (address loc progress / s.blockSize + 1) * s.blockSize := by
    rw [Nat.add_mul, Nat.one_mul]
    omega
  have h64' : loc.toNat + (progress + chunk) < 2 ^ 64 := by
    rw [hnext, Nat.add_mul, Nat.one_mul]
    exact hfit
  have haddr : address loc (progress + chunk) = loc.toNat + (progress + chunk) := Nat.mod_eq_of_lt h64'
  rw [haddr, hnext, Nat.mul_div_cancel _ h0]

/-- A write loop whose first chunk is only in the cache, and whose next turn cannot flush it. -/
theorem writeLoop_flush_fails {buffer : List UInt8} {loc : UInt64} {fuel progress : Nat} {s : Disk}
    (hlt : progress < buffer.length) (hfuel : fuel ≠ 0) (hd : s.cacheState = .dirty)
    (hne : s.cachedBlock ≠ address loc progress / s.blockSize) (hf : s.nextFault ≠ .none) :
    writeLoop buffer loc fuel s progress = (false, s.tick) := by
  obtain ⟨fuel, rfl⟩ := Nat.exists_eq_succ_of_ne_zero hfuel
  have hflush : deviceFlushCache s = (false, s.tick) := by
    unfold deviceFlushCache
    rw [if_neg (by rw [hd]; simp), if_pos hf]
  unfold writeLoop deviceCacheBlock
  rw [if_pos hlt, if_neg hne, if_pos hd, hflush]

theorem writeLoop_done {buffer : List UInt8} {loc : UInt64} {progress : Nat}
    (h : buffer.length ≤ progress) (fuel : Nat) (s : Disk) :
    writeLoop buffer loc fuel s progress = (true, s) := by
  cases fuel with
  | zero => rfl
  | succ fuel =>
    unfold writeLoop
    rw [if_neg (by omega)]

/-- The write loop once the next block is asked for. -/
theorem writeLoop_turn {buffer : List UInt8} {loc : UInt64} {progress : Nat} {s s' : Disk} {ok : Bool}
    (fuel : Nat) (hlt : progress < buffer.length)
    (hcb : deviceCacheBlock s (address loc progress / s.blockSize) = (ok, s')) :
    writeLoop buffer loc (fuel + 1) s progress =
      if ok then writeLoop buffer loc fuel (afterChunk buffer loc progress s')
        (progress + chunkSize s' loc buffer.length progress) else (false, s') := by
  conv_lhs => unfold writeLoop
  rw [if_pos hlt, hcb]
  cases ok with
  | false => rfl
  | true => rfl

/-- A write loop that fails leaves the device restorable, if nothing fails once it has flushed its
first block. -/
theorem writeLoop_failed {d : List UInt8} {s : Disk} (h : Installing d s) {loc : UInt64}
    {buffer : List UInt8} (hin : Inside s.whole loc buffer.length)
    (hnt : ∀ s', deviceCacheBlock s (loc.toNat / s.blockSize) = (true, s') → s'.nextFault = .none →
      Smooth (2 * (blocksFrom s.blockSize loc buffer.length 0 - 1)) s')
    (hfail : (writeLoop buffer loc buffer.length s 0).1 = false) :
    Restorable d (writeLoop buffer loc buffer.length s 0).2 := by
  have hc := h.coherent
  have h0 := hc.blockSize_pos
  have haddr := hin.addressable (Nat.lt_of_le_of_lt (whole_le s) hc.device_lt) s.blockSize
  by_cases hlt : 0 < buffer.length
  swap
  · rw [writeLoop_done (by omega)] at hfail
    cases hfail
  obtain ⟨n, hn⟩ := Nat.exists_eq_succ_of_ne_zero (by omega : buffer.length ≠ 0)
  have haddr0 : address loc 0 = loc.toNat := Nat.mod_eq_of_lt loc.toNat_lt
  have h64 : loc.toNat + 0 < 2 ^ 64 := loc.toNat_lt
  obtain ⟨hk, hc', hok, -⟩ := deviceCacheBlock_spec hc (block_ne_noBlock haddr hlt)
  rw [← haddr0] at hnt
  rcases hcb : deviceCacheBlock s (address loc 0 / s.blockSize) with ⟨ok, s'⟩
  rw [hcb] at hk hc' hok hnt
  dsimp only at hk hc' hok
  -- the first turn of the loop
  have hturn : writeLoop buffer loc buffer.length s 0 =
      if ok then writeLoop buffer loc n (afterChunk buffer loc 0 s')
        (0 + chunkSize s' loc buffer.length 0) else (false, s') := by
    conv_lhs => rw [hn]
    exact writeLoop_turn n hlt hcb
  rw [hturn] at hfail ⊢
  cases ok with
  | false => exact (h.keeps hk hc').restorable
  | true =>
    rw [if_pos rfl] at hfail ⊢
    obtain ⟨hcached, hfit⟩ := hok rfl
    have hcs : chunkSize s' loc buffer.length 0 = chunkSize s loc buffer.length 0 := by
      unfold chunkSize
      rw [hk.blockSize]
    rw [hcs] at hfail ⊢
    obtain ⟨hpos, hcnt, -, -⟩ := chunkSize_spec h0 loc hlt
    obtain ⟨hac, hav, hain, -⟩ := afterChunk_spec hc haddr hlt h64 hc.length_view
      (by simp [slice, splice_nil]) hk hc' hcached hfit
    by_cases hmore : 0 + chunkSize s loc buffer.length 0 < buffer.length
    swap
    · rw [writeLoop_done (by omega)] at hfail
      cases hfail
    by_cases hf : s'.nextFault = .none
    · -- nothing fails any more
      have hdev := hk.length_device hc
      have hlen := hc.length_view
      have hpost := writeLoop_spec s.view buffer loc n (afterChunk buffer loc 0 s') _ hac
        (show Addressable s'.blockSize _ _ from hk.blockSize.symm ▸ haddr) hcnt (by omega)
        (by have := whole_le s; have := hc.device_lt; rcases hin with hz | hz <;> omega)
        (show Inside s'.whole _ _ from (hk.whole hc).symm ▸ hain) (hlen.trans hdev.symm) hav
      have hsm := hnt s' rfl hf
      have hstep := blocksFrom_step h0 h64 hlt
      have hok := hpost.ok (show Inside s'.whole _ _ from (hk.whole hc).symm ▸ hin) 0 (by
        show Smooth (2 * blocksFrom s'.blockSize _ _ _ + 0) s'
        rw [hk.blockSize]
        refine hsm.mono ?_
        omega)
      rw [hok.1] at hfail
      cases hfail
    · -- the first block cannot be flushed
      have hnext := address_afterChunk h0 h64 hlt hmore (Nat.lt_of_le_of_lt hfit hc.device_lt)
      have hne : (afterChunk buffer loc 0 s').cachedBlock ≠
          address loc (0 + chunkSize s loc buffer.length 0) / (afterChunk buffer loc 0 s').blockSize := by
        show s'.cachedBlock ≠ _ / s'.blockSize
        rw [hcached, hk.blockSize, hnext]
        omega
      have hfa : (afterChunk buffer loc 0 s').nextFault ≠ .none := hf
      rw [writeLoop_flush_fails hmore (by omega) rfl hne hfa]
      have hr := (h.keeps hk hc').restorable
      exact ⟨hr.blockSize_pos, hr.device_lt, hac.cache_length, hr.recovers, hr.inside⟩

/-- **A failed write that is not torn can be undone.** -/
theorem deviceWriteRaw_failed {d : List UInt8} {s : Disk} (h : Installing d s) {loc : UInt64}
    {buffer : List UInt8} (haddr : Addressable s.blockSize loc buffer.length)
    (hnt : ¬ Torn s loc buffer.length) (hfail : (deviceWriteRaw s buffer loc).1 = false) :
    Restorable d (deviceWriteRaw s buffer loc).2 := by
  have hread := deviceReadRaw_spec h.coherent haddr
  unfold deviceWriteRaw at hfail ⊢
  rw [if_neg (by simp [h.installing])] at hfail ⊢
  split
  · exact h.restorable
  next hmax =>
  rw [if_neg hmax] at hfail
  unfold Torn atFirstBlock at hnt
  rcases hr : deviceReadRaw s loc buffer.length with ⟨ok, s', data⟩
  rw [hr] at hfail hread hnt
  have hi := h.keeps hread.keeps hread.coherent
  cases ok with
  | false => exact hi.restorable
  | true =>
    have hin := (hread.read rfl).2
    have hbs := hread.keeps.blockSize
    rw [← hread.keeps.whole h.coherent] at hin
    dsimp only at hfail hi hnt hbs hin ⊢
    have hloop := writeLoop_failed hi hin (fun s'' hcb hf => ?_)
    · rcases hl : writeLoop buffer loc buffer.length s' 0 with ⟨ok, s''⟩
      rw [hl] at hfail hloop
      cases ok with
      | true => cases hfail
      | false => exact hloop rfl
    · by_contra hsm
      rw [hcb, ← hbs] at hnt
      exact hnt ⟨s'', rfl, hf, hsm⟩

/-! ## Runs -/

theorem deviceInit_installing {blockSize : Nat} {device : List UInt8} (h0 : 0 < blockSize)
    (hlen : blockSize ≤ device.length) (h64 : device.length < 2 ^ 64) (faults : List Fault) :
    Installing device (deviceInit blockSize device faults) := by
  refine ⟨⟨h0, h64, length_slice (by omega), fun _ => ?_, fun _ => ?_, fun h => absurd h (by simp [deviceInit])⟩,
    rfl, Recovers.nil _, AgreeOff.refl _ _, fun ud hud => absurd hud List.not_mem_nil⟩
  · show 0 * blockSize + blockSize ≤ device.length
    omega
  · show slice device (0 * blockSize) blockSize = slice device 0 blockSize
    rw [Nat.zero_mul]

/-- A step that does not stop the run keeps the invariant. -/
theorem step_installing {d : List UInt8} {s : Disk} (h : Installing d s) {op : Op}
    (haddr : op.Addressable s.blockSize) (hgo : (step s op).1 = true ∨ op.isWrite = false) :
    Installing d (step s op).2 := by
  cases op with
  | read loc count =>
    have hread := deviceReadRaw_spec h.coherent haddr
    exact h.keeps hread.keeps hread.coherent
  | write loc buffer =>
    exact deviceWriteRaw_logged h haddr (hgo.resolve_right (by simp [Op.isWrite]))
  | flush =>
    obtain ⟨hk, hc, -⟩ := deviceFlushCache_spec h.coherent
    exact h.keeps hk hc

theorem step_size {s : Disk} (h : Coherent s) {op : Op} (haddr : op.Addressable s.blockSize) :
    (step s op).2.blockSize = s.blockSize ∧ (step s op).2.device.length = s.device.length := by
  cases op with
  | read loc count =>
    have hk := (deviceReadRaw_spec h haddr).keeps
    exact ⟨hk.blockSize, hk.length_device h⟩
  | write loc buffer => exact deviceWriteRaw_size h haddr
  | flush =>
    have hk := (deviceFlushCache_spec h).1
    exact ⟨hk.blockSize, hk.length_device h⟩

/-! ## Failures -/

def TornAt (s : Disk) : Op → Prop
  | .write loc buffer => Torn s loc buffer.length
  | _ => False

/-- No write of the run tears. -/
def NeverTorn : List Op → Disk → Prop
  | [], _ => True
  | op :: ops, s =>
    ¬ TornAt s op ∧ ((step s op).1 = true ∨ op.isRead = true → NeverTorn ops (step s op).2)

theorem step_failed {d : List UInt8} {s : Disk} (h : Installing d s) {op : Op}
    (haddr : op.Addressable s.blockSize) (hnt : ¬ TornAt s op) (hfail : (step s op).1 = false) :
    Restorable d (step s op).2 := by
  cases op with
  | read loc count => exact (step_installing h haddr (Or.inr rfl)).restorable
  | write loc buffer => exact deviceWriteRaw_failed h haddr hnt hfail
  | flush => exact (step_installing h haddr (Or.inr rfl)).restorable

theorem run_restorable {d : List UInt8} : ∀ (ops : List Op) (s : Disk), Installing d s →
    1 < s.blockSize → NeverTorn ops s → Restorable d (run ops s).2 := by
  intro ops
  induction ops with
  | nil => intro s h _ _; exact h.restorable
  | cons op ops ih =>
    intro s h h1 hnt
    obtain ⟨hop, hrest⟩ := hnt
    have haddr := Op.addressable_of_lt h1 op
    have hins := step_installing h haddr
    have hfailed := step_failed h haddr hop
    have hbs := (step_size h.coherent haddr).1
    unfold run
    rcases hst : step s op with ⟨ok, s'⟩
    rw [hst] at hrest hins hfailed hbs
    cases ok with
    | true => exact ih s' (hins (Or.inl rfl)) (hbs.symm ▸ h1) (hrest (Or.inl rfl))
    | false =>
      dsimp only
      split
      · next hread =>
        exact ih s' (hins (Or.inr (Op.isWrite_of_isRead hread))) (hbs.symm ▸ h1) (hrest (Or.inr hread))
      · exact hfailed rfl

/-- **A failed install is undone**, unless a write tears: whatever the operations, the failures and
the device, once nothing fails any more `uninstall` returns true and the device is as before. -/
theorem install_undone {blockSize : Nat} {device : List UInt8} (h1 : 1 < blockSize)
    (hlen : blockSize ≤ device.length) (h64 : device.length < 2 ^ 64) (faults : List Fault)
    (ops : List Op) (hnt : NeverTorn ops (deviceInit blockSize device faults)) :
    ∃ s', uninstall (reverseUninstallData
      { (run ops (deviceInit blockSize device faults)).2 with faults := [] }) = (true, s') ∧
      s'.device = device := by
  have hr := run_restorable ops _ (deviceInit_installing (by omega) hlen h64 faults) h1 hnt
  refine uninstall_spec ⟨hr.blockSize_pos, hr.device_lt, hr.cache_length, hr.recovers, hr.inside⟩ ?_
  intro n f hf
  simp at hf

/-- The flush of an install's only block fails. -/
theorem install_undone_flush :
    (run [.write 1 [9], .flush] (deviceInit 2 [1, 2, 3, 4] [.short 1])).1 = [true, false] ∧
    ∃ s', uninstall (reverseUninstallData
      { (run [.write 1 [9], .flush] (deviceInit 2 [1, 2, 3, 4] [.short 1])).2 with faults := [] }) =
        (true, s') ∧ s'.device = [1, 2, 3, 4] := by
  refine ⟨by decide, install_undone (by decide) (by decide) (by decide) [.short 1] [.write 1 [9], .flush] ?_⟩
  refine ⟨?_, fun _ => ⟨id, fun _ => trivial⟩⟩
  rintro ⟨s', hs', hf, -⟩
  obtain rfl : deviceInit 2 [1, 2, 3, 4] [.short 1] = s' := Option.some.inj hs'
  cases hf

/-- A write over two blocks whose first one is flushed before the second one fails to be read: there
is no entry for it, so `uninstall` returns true and leaves the first block as written. -/
theorem install_not_undone_torn :
    (run [.write 0 (List.replicate 1024 1)]
      (deviceInit 512 (List.replicate 1024 0) [.none, .none, .none, .seek])).1 = [false] ∧
    (uninstall (reverseUninstallData
      { (run [.write 0 (List.replicate 1024 1)]
        (deviceInit 512 (List.replicate 1024 0) [.none, .none, .none, .seek])).2 with
        faults := [] })).1 = true ∧
    (uninstall (reverseUninstallData
      { (run [.write 0 (List.replicate 1024 1)]
        (deviceInit 512 (List.replicate 1024 0) [.none, .none, .none, .seek])).2 with
        faults := [] })).2.device = List.replicate 512 1 ++ List.replicate 512 0 := by
  decide +kernel

/-! ## No failure -/

/-- What a run without failures has reached: the room left in the log, and whether every entry
holds something. -/
structure Going (d : List UInt8) (writes : Nat) (nonempty : Prop) (s : Disk) : Prop where
  installing : Installing d s
  smooth : ∀ n, Smooth n s
  room : s.uninstallData.length + writes ≤ uninstallDataMax
  nonempty : nonempty → ∀ ud ∈ s.uninstallData, ud.data ≠ []

def Op.NonEmpty : Op → Prop
  | .write _ buffer => buffer ≠ []
  | _ => True

theorem step_going {d : List UInt8} {writes : Nat} {nonempty : Prop} {s : Disk} {op : Op}
    (h : Going d (writes + if op.isWrite then 1 else 0) nonempty s) (hin : op.Inside s.whole)
    (hne : nonempty → op.NonEmpty) : (step s op).1 = true ∧ Going d writes nonempty (step s op).2 := by
  have hi := h.installing
  have haddr := hin.addressable (Nat.lt_of_le_of_lt (whole_le s) hi.coherent.device_lt) s.blockSize
  have hins := step_installing hi haddr
  have hroom := h.room
  cases op with
  | read loc count =>
    have hread := deviceReadRaw_spec hi.coherent haddr
    obtain ⟨hok, hs⟩ := hread.ok hin h.smooth
    have hud := hread.keeps.uninstallData
    refine ⟨hok, hins (Or.inl hok), hs, ?_, ?_⟩
    · rw [step, hud]
      exact hroom
    · rw [step, hud]
      exact h.nonempty
  | write loc buffer =>
    simp only [Op.isWrite, if_true] at hroom
    obtain ⟨hok, hs, data, hlen, hud⟩ := deviceWriteRaw_ok hi hin h.smooth (by omega)
    refine ⟨hok, hins (Or.inl hok), hs, ?_, fun hn ud hud' => ?_⟩
    · rw [step, hud, List.length_append, List.length_singleton]
      omega
    · rw [step, hud] at hud'
      rcases List.mem_append.mp hud' with hud' | hud'
      · exact h.nonempty hn ud hud'
      · obtain rfl := List.mem_singleton.mp hud'
        intro hz
        rw [show data = [] from hz] at hlen
        exact hne hn (List.eq_nil_of_length_eq_zero hlen.symm)
  | flush =>
    obtain ⟨hk, -, -, -, hsm⟩ := deviceFlushCache_spec hi.coherent
    have hok := (hsm 0 (h.smooth 1)).1
    refine ⟨hok, hins (Or.inl hok), fun n => (hsm n (h.smooth (n + 1))).2, ?_, ?_⟩
    · rw [step, hk.uninstallData]
      exact hroom
    · rw [step, hk.uninstallData]
      exact h.nonempty

theorem run_going {d : List UInt8} {nonempty : Prop} : ∀ (ops : List Op) (s : Disk),
    Going d (ops.countP Op.isWrite) nonempty s → (∀ op ∈ ops, op.Inside s.whole) →
    (nonempty → ∀ op ∈ ops, op.NonEmpty) →
    (run ops s).1 = List.replicate ops.length true ∧ Going d 0 nonempty (run ops s).2 ∧
      (run ops s).2.blockSize = s.blockSize ∧ (run ops s).2.device.length = s.device.length := by
  intro ops
  induction ops with
  | nil => intro s h _ _; exact ⟨rfl, h, rfl, rfl⟩
  | cons op ops ih =>
    intro s h hin hne
    rw [List.countP_cons] at h
    obtain ⟨hop, hin⟩ := List.forall_mem_cons.mp hin
    obtain ⟨hok, hgo⟩ := step_going h hop fun hn => hne hn op List.mem_cons_self
    have hsize := step_size h.installing.coherent (hop.addressable
      (Nat.lt_of_le_of_lt (whole_le s) h.installing.coherent.device_lt) s.blockSize)
    unfold run
    rcases hst : step s op with ⟨ok, s'⟩
    rw [hst] at hok hgo hsize
    obtain rfl : ok = true := hok
    obtain ⟨hbs, hlen⟩ := hsize
    dsimp only at hbs hlen ⊢
    obtain ⟨h1, h2, h3, h4⟩ := ih s' hgo (by unfold Disk.whole; rw [hbs, hlen]; exact hin)
      fun hn op' hop' => hne hn op' (List.mem_cons_of_mem _ hop')
    exact ⟨by rw [h1]; rfl, h2, h3.trans hbs, h4.trans hlen⟩

/-- **An install is undone** if no operation fails: all extents lie in the device's whole blocks, the
only ones that can be read, and there are at most 256 writes.  `uninstall` undoes it in the same
run; and in a later one from the data file, if every write wrote something. -/
theorem uninstall_restores {blockSize : Nat} {device : List UInt8} (h0 : 0 < blockSize)
    (hlen : blockSize ≤ device.length) (h64 : device.length < 2 ^ 64) (ops : List Op)
    (hin : ∀ op ∈ ops, op.Inside (device.length / blockSize * blockSize))
    (hmax : ops.countP Op.isWrite ≤ uninstallDataMax) :
    ∃ s, run ops (deviceInit blockSize device []) = (List.replicate ops.length true, s) ∧
      (∃ s', uninstall (reverseUninstallData s) = (true, s') ∧ s'.device = device) ∧
      ((∀ op ∈ ops, op.NonEmpty) →
        ∃ s₁ file s₂ s₃, deviceFlushCache s = (true, s₁) ∧
          storeUninstallData (reverseUninstallData s₁) = some file ∧
          loadUninstallData (deviceInit blockSize s₁.device []) file = some s₂ ∧
          uninstall s₂ = (true, s₃) ∧ s₃.device = device) := by
  have hstart : Going device (ops.countP Op.isWrite) (∀ op ∈ ops, op.NonEmpty)
      (deviceInit blockSize device []) := by
    refine ⟨deviceInit_installing h0 hlen h64 [], fun n f hf => ?_, ?_,
      fun _ ud hud => absurd hud List.not_mem_nil⟩
    · simp [deviceInit] at hf
    · show 0 + _ ≤ _
      omega
  obtain ⟨hoks, hgo, hbs, hdev⟩ := run_going ops _ hstart hin id
  generalize hs : (run ops (deviceInit blockSize device [])).2 = s at *
  have hi := hgo.installing
  refine ⟨s, Prod.ext hoks hs, uninstall_spec hi.restorable hgo.smooth, fun hne => ?_⟩
  obtain ⟨hk, hc, -, -, hsm⟩ := deviceFlushCache_spec hi.coherent
  have hok := (hsm 0 (hgo.smooth 1)).1
  have hr := (hi.keeps hk hc).restorable
  have hbs₁ : (deviceFlushCache s).2.blockSize = blockSize := hk.blockSize.trans hbs
  have hdev₁ : (deviceFlushCache s).2.device.length = device.length :=
    (hk.length_device hi.coherent).trans hdev
  generalize hs₁ : (deviceFlushCache s).2 = s₁ at *
  -- what the data file is written from
  have hentry : ∀ ud ∈ (reverseUninstallData s₁).uninstallData, ud.data ≠ [] ∧ ud.count < 2 ^ 64 := by
    intro ud hud
    have hud' : ud ∈ s₁.uninstallData := List.mem_reverse.mp hud
    refine ⟨hgo.nonempty hne ud (hk.uninstallData ▸ hud'), ?_⟩
    have := whole_le s₁
    have := hr.device_lt
    rcases hr.inside ud hud' with hz | hz <;> omega
  have hroom : (reverseUninstallData s₁).uninstallData.length ≤ uninstallDataMax := by
    show s₁.uninstallData.reverse.length ≤ _
    rw [List.length_reverse, hk.uninstallData]
    exact Nat.le_of_add_right_le hgo.room
  obtain ⟨file, hstore, hload⟩ := load_store hentry hroom
  -- the later run
  have hnew : Restorable device
      { deviceInit blockSize s₁.device [] with uninstallData := s₁.uninstallData } := by
    refine ⟨h0, hr.device_lt, length_slice (by omega), hr.recovers, fun ud hud => ?_⟩
    have := hr.inside ud hud
    unfold Disk.whole at this
    rwa [hbs₁] at this
  obtain ⟨s₃, hun, hd₃⟩ := uninstall_spec hnew fun n f hf => by simp [deviceInit] at hf
  exact ⟨s₁, file, _, s₃, Prod.ext hok hs₁, hstore, hload _, hun, hd₃⟩

/-- Two writes that overlap, in one run and from the file. -/
theorem uninstall_restores_overlap :
    ∃ s, run [.write 1 [9, 8], .write 2 [7], .read 0 4] (deviceInit 2 [1, 2, 3, 4] []) =
        ([true, true, true], s) ∧
      (∃ s', uninstall (reverseUninstallData s) = (true, s') ∧ s'.device = [1, 2, 3, 4]) ∧
      ∃ s₁ file s₂ s₃, deviceFlushCache s = (true, s₁) ∧
        storeUninstallData (reverseUninstallData s₁) = some file ∧
        loadUninstallData (deviceInit 2 s₁.device []) file = some s₂ ∧
        uninstall s₂ = (true, s₃) ∧ s₃.device = [1, 2, 3, 4] := by
  obtain ⟨s, hrun, hun, hfile⟩ := @uninstall_restores 2 [1, 2, 3, 4] (by decide) (by decide) (by decide)
    [.write 1 [9, 8], .write 2 [7], .read 0 4] (by decide) (by decide)
  exact ⟨s, hrun, hun, hfile (by simp [Op.NonEmpty])⟩

/-- The data file cannot be written if a write wrote nothing. -/
theorem storeUninstallData_empty_write :
    ∃ s s₁, run [.write 0 []] (deviceInit 512 (List.replicate 512 0) []) = ([true], s) ∧
      deviceFlushCache s = (true, s₁) ∧ storeUninstallData (reverseUninstallData s₁) = none :=
  ⟨_, _, rfl, rfl, rfl⟩

end Limine.Host
