import Limine.Lib.Successors
import Limine.Fat32.Open

/-!
# Chains can be read

A chain that is cached is the one the table has from its first cluster on; its clusters lie inside the
volume, and what is read of it are their bytes.
-/

namespace Limine.Fat32
open Limine.Fs (Volume)
open Limine.Lib (Traced Follow Ends)
open Limine.Loader (checkedMul checkedMul_eq_some_iff)
open Limine.Part (noSectCount)

/-! ## What the table says -/

variable (part : Volume) (context : Context)

/-- The entry of a cluster, as the table on the volume has it. -/
def entryOf (cluster : Nat) : Nat :=
  context.unpackEntry cluster
    (part.bytes (context.fatBase + context.entryOffset cluster) context.entryWidth)

/-- Numbers that stand for a cluster, and not for the end of a chain. -/
def InRange (cluster : Nat) : Prop := 2 ≤ cluster ∧ cluster ≤ context.clusterLimit

/-- The clusters one comes by following the table. -/
abbrev FatChain : Nat → List Nat → Prop := Follow (entryOf part context) (InRange context)

def clusterBytes (cluster : Nat) : List UInt8 :=
  part.bytes (clusterBase context cluster) context.blockSize

def contents (chain : List Nat) : List UInt8 := chain.flatMap (clusterBytes part context)

/-- Reads of the table stay inside it, reads of data inside the volume. -/
def Within (a : Access) : Prop :=
  (a.region = .fat → context.fatBase ≤ a.loc ∧ a.loc + a.count ≤ context.fatBase + context.fatSize) ∧
    (a.region = .data → part.Inside a.loc a.count)

/-- A chain whose clusters are all there. -/
def Readable (chain : List Nat) : Prop :=
  ∀ c ∈ chain, 2 ≤ c ∧ part.Inside (clusterBase context c) context.blockSize

variable {part context}

theorem Readable.tail {c : Nat} {chain : List Nat} (h : Readable part context (c :: chain)) :
    Readable part context chain :=
  fun x hx => h x (List.mem_cons_of_mem c hx)

/-! ## The table -/

theorem volumeRead_ensures (hknown : part.sectCount ≠ noSectCount) {within : Access → Prop} {region : Region}
    {loc count : Nat} (hwithin : within ⟨region, loc, count⟩) :
    (volumeRead part region loc count).Ensures within (· = .null) fun bytes =>
      bytes = part.bytes loc count := by
  apply Traced.Ensures.access hwithin
  split
  · next bytes hread => exact (part.inside_of_volumeRead hknown hread).2
  · exact rfl

theorem readClusterFromMap_ensures (hknown : part.sectCount ≠ noSectCount) (cluster : Nat) :
    (readClusterFromMap part context cluster).Ensures (Within part context) (· = .null) fun next =>
      next = entryOf part context cluster := by
  unfold readClusterFromMap
  dsimp only
  split
  · exact .fail rfl
  next hfit =>
  apply (volumeRead_ensures hknown _).bind
  · rintro bytes rfl
    exact .pure rfl
  · refine ⟨fun _ => ?_, fun h => ?_⟩
    · dsimp only
      omega
    · cases h

theorem countChain_ensures (hknown : part.sectCount ≠ noSectCount) {readableLimit left chainLength cluster : Nat}
    (hc : InRange context cluster) :
    (countChain part context readableLimit left chainLength cluster).Ensures (Within part context) (· = .null)
      fun n => ∃ chain, FatChain part context cluster chain ∧ n + 1 = chainLength + chain.length ∧
        ∀ c ∈ chain, c ≤ readableLimit := by
  induction left generalizing chainLength cluster with
  | zero => exact .fail rfl
  | succ left ih =>
    unfold countChain
    split
    · exact .fail rfl
    next hreadable =>
    apply (readClusterFromMap_ensures hknown cluster).bind
    rintro next rfl
    split
    · next hend =>
      refine .pure ⟨[cluster], .step hc (.stop ?_), rfl, ?_⟩
      · unfold InRange
        omega
      · intro c h
        rw [List.mem_singleton.mp h]
        omega
    · next hend =>
      apply (ih ⟨by omega, by omega⟩).imp (fun _ h => h) (fun _ h => h)
      rintro n ⟨chain, hchain, hn, hall⟩
      refine ⟨cluster :: chain, .step hc hchain, ?_, ?_⟩
      · rw [List.length_cons]
        omega
      · intro c h
        rcases List.mem_cons.mp h with rfl | h
        · omega
        · exact hall c h

theorem fillChain_ensures (hknown : part.sectCount ≠ noSectCount) {cluster : Nat} {chain : List Nat}
    (h : FatChain part context cluster chain) :
    (fillChain part context chain.length cluster).Ensures (Within part context) (· = .null) (· = chain) := by
  induction h with
  | stop _ => exact .pure rfl
  | @step cluster chain _ _ ih =>
    rw [List.length_cons]
    unfold fillChain
    apply (readClusterFromMap_ensures hknown cluster).bind
    rintro next rfl
    apply ih.bind
    rintro rest rfl
    exact .pure rfl

/-- A cluster up to the limit lies inside the volume. -/
theorem inside_of_readable (hknown : part.sectCount ≠ noSectCount) {limit c : Nat}
    (h : readableClusterLimit part context = some limit) (h2 : 2 ≤ c) (hc : c ≤ limit) :
    part.Inside (clusterBase context c) context.blockSize := by
  unfold readableClusterLimit at h
  rw [if_neg hknown] at h
  obtain ⟨size, hsize, h⟩ := Option.bind_eq_some_iff.mp h
  have hinside : part.size = some size := by
    unfold Volume.size
    rw [if_neg hknown, hsize]
  refine ⟨size, hinside, ?_⟩
  dsimp only at h
  have hlimit := (Option.some.inj h).symm
  -- there is at least the one data cluster, so the data starts inside the volume
  have hdata : c ≤ (size / context.bytesPerSector - context.dataStartLba) / context.sectorsPerCluster + 1 ∧
      context.dataStartLba < size / context.bytesPerSector := by
    split at hlimit
    all_goals split at hlimit
    all_goals omega
  obtain ⟨hle, hstart⟩ := hdata
  obtain ⟨k, rfl⟩ := Nat.exists_eq_add_of_le h2
  have hclusters : (k + 1) * context.sectorsPerCluster ≤
      size / context.bytesPerSector - context.dataStartLba :=
    Nat.le_trans (Nat.mul_le_mul_right _ (by omega)) (Nat.div_mul_le_self _ _)
  have hsectors : context.dataStartLba + (k + 1) * context.sectorsPerCluster ≤
      size / context.bytesPerSector := by
    omega
  have hbytes := Nat.le_trans (Nat.mul_le_mul_right context.bytesPerSector hsectors) (Nat.div_mul_le_self _ _)
  unfold clusterBase Context.blockSize
  rw [Nat.add_sub_cancel_left]
  calc (context.dataStartLba + k * context.sectorsPerCluster) * context.bytesPerSector +
        context.sectorsPerCluster * context.bytesPerSector
      = (context.dataStartLba + (k + 1) * context.sectorsPerCluster) * context.bytesPerSector := by
        rw [← Nat.add_mul, Nat.add_assoc, Nat.succ_mul]
    _ ≤ size := hbytes

theorem cacheClusterChain_ensures (hknown : part.sectCount ≠ noSectCount) (initialCluster : Nat) :
    (cacheClusterChain part context initialCluster).Ensures (Within part context) (· = .null) fun chain =>
      FatChain part context initialCluster chain ∧ Readable part context chain := by
  unfold cacheClusterChain
  split
  · exact .fail rfl
  next hrange =>
  have hc : InRange context initialCluster := by
    unfold InRange
    omega
  split
  · exact .fail rfl
  next limit hlimit =>
  apply (countChain_ensures hknown hc).bind
  rintro n ⟨chain, hchain, hn, hall⟩
  have hlength : n = chain.length := by omega
  rw [hlength]
  apply (fillChain_ensures hknown hchain).imp (fun _ h => h) (fun _ h => h)
  rintro _ rfl
  refine ⟨hchain, ?_⟩
  intro c hmem
  have h2 := (hchain.live_of_mem hmem).1
  exact ⟨h2, inside_of_readable hknown hlimit h2 (hall c hmem)⟩

/-! ## The data -/

/-- A part of one of the blocks of the same length that a list is made of. -/
theorem flatMap_drop_take {α β : Type} {f : α → List β} {size : Nat} {l : List α}
    (hf : ∀ a ∈ l, (f a).length = size) {i off n : Nat} {a : α} (ha : l[i]? = some a) (hfit : off + n ≤ size) :
    ((l.flatMap f).drop (i * size + off)).take n = ((f a).drop off).take n := by
  induction l generalizing i with
  | nil => cases ha
  | cons b l ih =>
    have hb := hf b (List.mem_cons_self ..)
    rw [List.flatMap_cons, List.drop_append, hb]
    cases i with
    | zero =>
      cases ha
      rw [Nat.zero_mul, Nat.zero_add, List.take_append_of_le_length]
      rw [List.length_drop, hb]
      omega
    | succ i =>
      have hskip : (f b).drop ((i + 1) * size + off) = [] := by
        apply List.drop_of_length_le
        rw [hb, Nat.succ_mul]
        omega
      have hrest : (i + 1) * size + off - size = i * size + off := by
        rw [Nat.succ_mul]
        omega
      rw [hskip, List.nil_append, hrest]
      exact ih (fun a h => hf a (List.mem_cons_of_mem b h)) ha

theorem readClusters_ensures (hsize : 0 < context.blockSize) {chain : List Nat}
    (hreadable : Readable part context chain) {fuel loc count : Nat} (hf : count < fuel)
    (hfit : loc + count ≤ chain.length * context.blockSize) :
    (readClusters part context chain fuel loc count).Ensures (Within part context) (fun _ => False) fun buf =>
      buf = ((contents part context chain).drop loc).take count := by
  induction fuel generalizing loc count with
  | zero => omega
  | succ fuel ih =>
    unfold readClusters
    split
    · next h0 =>
      rw [h0]
      exact .pure rfl
    next h0 =>
    have hblock : loc / context.blockSize < chain.length := by
      rw [Nat.div_lt_iff_lt_mul hsize]
      omega
    split
    · next hnone =>
      rw [List.getElem?_eq_none_iff] at hnone
      omega
    next cluster hcluster =>
    obtain ⟨h2, hinside⟩ := hreadable cluster (List.mem_of_getElem? hcluster)
    rw [if_neg (by omega)]
    dsimp only
    have hoffset := Nat.mod_lt loc hsize
    generalize hchunk : (if count > context.blockSize - loc % context.blockSize then
      context.blockSize - loc % context.blockSize else count) = chunk
    have hpos : 0 < chunk ∧ chunk ≤ count ∧ loc % context.blockSize + chunk ≤ context.blockSize := by
      split at hchunk
      · omega
      · omega
    obtain ⟨h0', hle, hend⟩ := hpos
    have hhere : part.Inside (clusterBase context cluster + loc % context.blockSize) chunk := by
      obtain ⟨size, hs, hinside⟩ := hinside
      exact ⟨size, hs, by omega⟩
    have hread : (volumeRead part .data (clusterBase context cluster + loc % context.blockSize) chunk).Ensures
        (Within part context) (fun _ => False) fun bytes =>
          bytes = ((clusterBytes part context cluster).drop (loc % context.blockSize)).take chunk := by
      apply Traced.Ensures.access
      · exact ⟨nofun, fun _ => hhere⟩
      · rw [part.volumeRead_inside hhere h0']
        unfold clusterBytes
        rw [part.bytes_drop_take hend]
        exact rfl
    apply hread.bind
    rintro bytes rfl
    have hrest := @ih (loc + chunk) (count - chunk) (by omega) (by omega)
    apply hrest.bind
    rintro rest rfl
    refine .pure ?_
    have hpart := flatMap_drop_take (f := clusterBytes part context) (n := chunk)
      (fun a _ => part.length_bytes _ _) hcluster hend
    rw [Nat.mul_comm, Nat.div_add_mod] at hpart
    obtain ⟨n, rfl⟩ := Nat.exists_eq_add_of_le hle
    unfold contents
    rw [← hpart, List.take_add, List.drop_drop, Nat.add_sub_cancel_left]

theorem readClusterChain_ensures (hsize : 0 < context.blockSize) {chain : List Nat}
    (hreadable : Readable part context chain) {loc count : Nat}
    (hfit : loc + count ≤ chain.length * context.blockSize) :
    (readClusterChain part context chain loc count).Ensures (Within part context) (fun _ => False) fun buf =>
      buf = ((contents part context chain).drop loc).take count :=
  readClusters_ensures hsize hreadable (Nat.lt_succ_self count) hfit

end Limine.Fat32
