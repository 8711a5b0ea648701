import Limine.Fat32.Chains

/-!
# What opens can be read

A handle has the chain of its file, which has room for the file and can be read to its end; an empty file
may be without.
-/

namespace Limine.Fat32
open Limine.Fs (Volume cString)
open Limine.Lib (Traced Ends)
open Limine.Menu (CString)
open Limine.Part (noSectCount)

variable {part : Volume} {context : Context}

/-! ## Contexts -/

theorem blockSize_pos_of_contextOf {bpb : Bpb} (h : contextOf bpb = some context) : 0 < context.blockSize := by
  unfold contextOf at h
  obtain ⟨-, h⟩ := Option.ite_none_left_eq_some.mp h
  obtain ⟨hcluster, h⟩ := Option.ite_none_left_eq_some.mp h
  obtain ⟨hsector, h⟩ := Option.ite_none_left_eq_some.mp h
  have hcluster : 0 < bpb.sectorsPerCluster := by
    have : ∀ n ∈ sectorPerClusterValidValues, 0 < n := by decide
    exact this _ (not_not.mp hcluster)
  have hsector : 0 < bpb.bytesPerSector := by
    have : ∀ n ∈ bytesPerSectorValidValues, 0 < n := by decide
    exact this _ (not_not.mp hsector)
  -- the counts
  obtain ⟨-, h⟩ := Option.ite_none_left_eq_some.mp h
  obtain ⟨-, h⟩ := Option.ite_none_left_eq_some.mp h
  obtain ⟨-, h⟩ := Option.ite_none_left_eq_some.mp h
  -- the type and the root directory
  obtain ⟨-, h⟩ := Option.ite_none_left_eq_some.mp h
  obtain ⟨-, h⟩ := Option.ite_none_left_eq_some.mp h
  obtain ⟨-, h⟩ := Option.ite_none_left_eq_some.mp h
  obtain ⟨dataStartLba, -, h⟩ := Option.bind_eq_some_iff.mp h
  cases h
  exact Nat.mul_pos hcluster hsector

theorem initContext_ensures (part : Volume) :
    (initContext part).Ensures (fun a => a.region = .bootSector) (· = .null) fun context =>
      0 < context.blockSize := by
  unfold initContext
  have hread : (volumeRead part .bootSector 0 sizeofBpb).Ensures (fun a => a.region = .bootSector) (· = .null)
      fun _ => True := by
    refine Traced.Ensures.access (a := (⟨.bootSector, 0, sizeofBpb⟩ : Access)) rfl ?_
    split
    · trivial
    · exact rfl
  apply hread.bind
  intro bpb _
  split
  · exact .fail rfl
  · next context hcontext => exact .pure (blockSize_pos_of_contextOf hcontext)

/-! ## Directories -/

theorem loadDirectory_ensures (hknown : part.sectCount ≠ noSectCount) (hsize : 0 < context.blockSize)
    (directory : Option DirectoryEntry) :
    (loadDirectory part context directory).Ensures (Within part context) (· = .null) fun _ => True := by
  cases directory with
  | some directory =>
    unfold loadDirectory
    apply (cacheClusterChain_ensures hknown _).bind
    rintro chain ⟨-, hreadable⟩
    split
    · exact .fail rfl
    next allocSize halloc =>
    split
    · exact .fail rfl
    have hfit : 0 + allocSize ≤ chain.length * context.blockSize := by
      rw [(Loader.checkedMul_eq_some_iff.mp halloc).2, Nat.zero_add]
    exact (readClusterChain_ensures hsize hreadable hfit).imp (fun _ h => h) (fun _ h => h.elim)
      fun _ _ => trivial
  | none =>
    unfold loadDirectory
    dsimp only
    split
    · exact .fail rfl
    split
    · exact .fail rfl
    apply (volumeRead_ensures hknown _).bind
    · intro bytes _
      exact .pure trivial
    · constructor
      · intro h
        cases h
      · intro h
        cases h

theorem openIn_ensures (hknown : part.sectCount ≠ noSectCount) (hsize : 0 < context.blockSize)
    (caseInsensitiveFopen : Bool) (directory : Option DirectoryEntry) (name : CString) :
    (openIn caseInsensitiveFopen part context directory name).Ensures (Within part context) (· = .null)
      fun _ => True := by
  unfold openIn
  apply (loadDirectory_ensures hknown hsize directory).bind
  intro directoryEntries _
  dsimp only
  split
  · exact .fail rfl
  · exact .pure trivial

/-! ## Handles -/

/-- What a handle comes with. -/
structure Sound (part : Volume) (context : Context) (handle : FileHandle) : Prop where
  context_eq : handle.context = context
  chain : FatChain part context handle.firstCluster handle.clusterChain ∨
    handle.sizeBytes = 0 ∧ handle.clusterChain = []
  readable : Readable part context handle.clusterChain
  room : handle.sizeBytes ≤ handle.clusterChain.length * context.blockSize

theorem openEntry_ensures (hknown : part.sectCount ≠ noSectCount) (currentFile : DirectoryEntry) :
    (openEntry part context currentFile).Ensures (Within part context) (· = .null) (Sound part context) := by
  unfold openEntry
  have hchain : ((cacheClusterChain part context (currentFile.firstCluster context)).attempt
      Halt.isNull).Ensures (Within part context) (· = .null) fun chain =>
        (chain = none ∨ FatChain part context (currentFile.firstCluster context) (chain.getD [])) ∧
          Readable part context (chain.getD []) :=
    (cacheClusterChain_ensures hknown _).attempt (fun chain h => ⟨Or.inr h.1, h.2⟩) ⟨Or.inl rfl, nofun⟩
  apply hchain.bind
  rintro chain ⟨hchain, hreadable⟩
  dsimp only
  split
  · exact .fail rfl
  next hroom =>
  refine .pure ⟨rfl, ?_, hreadable, Nat.le_of_not_lt hroom⟩
  rcases hchain with rfl | hchain
  · -- without a chain there is no room for anything
    have h0 : ([] : List Nat).length * context.blockSize = 0 := Nat.zero_mul _
    refine Or.inr ⟨?_, rfl⟩
    show currentFile.fileSizeBytes = 0
    rw [Option.getD_none, h0] at hroom
    omega
  · exact Or.inl hchain

/-- Whether there is a chain does not matter to a file without contents. -/
theorem openEntry_empty (hknown : part.sectCount ≠ noSectCount) (context : Context)
    {currentFile : DirectoryEntry} (hempty : currentFile.fileSizeBytes = 0) :
    ∃ handle, (openEntry part context currentFile).result = .ok handle ∧ handle.context = context ∧
      handle.firstCluster = currentFile.firstCluster context := by
  have hchain : ∃ chain, ((cacheClusterChain part context (currentFile.firstCluster context)).attempt
      Halt.isNull).result = .ok chain := by
    have hresult := (@cacheClusterChain_ensures part context hknown (currentFile.firstCluster context)).2
    unfold Traced.attempt
    cases hcached : (cacheClusterChain part context (currentFile.firstCluster context)).result with
    | ok chain => exact ⟨some chain, rfl⟩
    | error e =>
      rw [hcached] at hresult
      cases hresult
      exact ⟨none, rfl⟩
  obtain ⟨chain, hchain⟩ := hchain
  refine ⟨⟨context, currentFile.firstCluster context, currentFile.fileSizeBytes, chain.getD []⟩, ?_, rfl, rfl⟩
  refine Traced.result_bind_eq_ok_iff.mpr ⟨chain, hchain, ?_⟩
  rw [if_neg (hempty ▸ Nat.not_lt_zero _)]
  rfl

theorem openPath_ensures (hknown : part.sectCount ≠ noSectCount) (hsize : 0 < context.blockSize)
    (caseInsensitiveFopen : Bool) (parts : List CString) (currentIndex : Nat)
    (currentDirectory : Option DirectoryEntry) :
    (openPath caseInsensitiveFopen part context parts currentIndex currentDirectory).Ensures
      (Within part context) (· = .null) (Sound part context) := by
  induction parts generalizing currentIndex currentDirectory with
  | nil => exact .fail rfl
  | cons currentPart parts ih =>
    unfold openPath
    split
    · exact .fail rfl
    split
    · exact .fail rfl
    split
    · exact .fail rfl
    apply (openIn_ensures hknown hsize caseInsensitiveFopen currentDirectory currentPart).bind
    intro currentFile _
    split
    · exact openEntry_ensures hknown currentFile
    split
    · exact .fail rfl
    · exact ih _ _

/-- The walk is over after one component. -/
theorem openFile_component {caseInsensitiveFopen : Bool} {path name : CString} {file : DirectoryEntry}
    (hcontext : (initContext part).result = .ok context)
    (hpath : components ((cString path).dropWhile (· = slash)) = [name])
    (hlength : name.length < fat32LfnMaxFilenameLength - 1)
    (hindex : (cString path).length - ((cString path).dropWhile (· = slash)).length + name.length < 2 ^ 32)
    (hfile : (openIn caseInsensitiveFopen part context (rootDirectory context) name).result = .ok file) :
    (openFile caseInsensitiveFopen part path).result = (openEntry part context file).result := by
  unfold openFile
  rw [Traced.result_bind, hcontext]
  show (openPath _ _ _ (components _) _ _).result = _
  rw [hpath, openPath, if_neg (Nat.not_le_of_lt hlength), if_neg (Nat.not_le_of_lt hindex),
    if_neg (fun h => h.1 rfl), Traced.result_bind, hfile]
  rfl

theorem openFile_ensures (hknown : part.sectCount ≠ noSectCount) (caseInsensitiveFopen : Bool) (path : CString) :
    Ends (· = .null) (openFile caseInsensitiveFopen part path).result fun handle =>
      0 < handle.context.blockSize ∧ Sound part handle.context handle ∧
        ∀ a ∈ (openFile caseInsensitiveFopen part path).log, Within part handle.context a := by
  unfold openFile
  obtain ⟨hinit, hcontext⟩ := initContext_ensures part
  generalize initContext part = init at hinit hcontext
  obtain ⟨result, log⟩ := init
  cases result with
  | error e => exact hcontext
  | ok context =>
    obtain ⟨hlog, hresult⟩ := openPath_ensures hknown hcontext caseInsensitiveFopen
      (components ((cString path).dropWhile (· = slash)))
      ((cString path).length - ((cString path).dropWhile (· = slash)).length) (rootDirectory context)
    apply hresult.imp
    intro handle hsound
    rw [hsound.context_eq]
    refine ⟨hcontext, hsound, ?_⟩
    intro a ha
    rcases List.mem_append.mp ha with ha | ha
    · have hboot := hinit a ha
      constructor
      · intro h
        rw [hboot] at h
        cases h
      · intro h
        rw [hboot] at h
        cases h
    · exact hlog a ha

theorem read_ensures {handle : FileHandle} (hsize : 0 < handle.context.blockSize)
    (h : Sound part handle.context handle) {loc count : Nat} (hfit : loc + count ≤ handle.sizeBytes) :
    (read part handle loc count).Ensures (Within part handle.context) (fun _ => False) fun r =>
      r = (((contents part handle.context handle.clusterChain).drop loc).take count, count) := by
  unfold read
  have hread := readClusterChain_ensures hsize h.readable (Nat.le_trans hfit h.room)
  have hattempt : ((readClusterChain part handle.context handle.clusterChain loc count).attempt
      Halt.isNull).Ensures (Within part handle.context) (fun _ => False) fun r =>
        r = some (((contents part handle.context handle.clusterChain).drop loc).take count) := by
    generalize readClusterChain part handle.context handle.clusterChain loc count = x at hread
    obtain ⟨result, log⟩ := x
    obtain ⟨hlog, hresult⟩ := hread
    cases result with
    | error e => exact hresult.elim
    | ok buf => exact ⟨hlog, congrArg some hresult⟩
  apply hattempt.bind
  rintro r rfl
  exact .pure rfl

/-- Opening a file does not panic, and neither does a read inside a file that has been opened: it gives the
bytes of the clusters the table has for the file.  None of those is there twice; neither call reads past the
table, or data past the volume. -/
theorem openFile_reads_clusters (part : Volume) (hknown : part.sectCount ≠ noSectCount) (caseInsensitiveFopen : Bool)
    (path : CString) :
    (∀ s, (openFile caseInsensitiveFopen part path).result ≠ .error (.stop s)) ∧
    ∀ handle, (openFile caseInsensitiveFopen part path).result = .ok handle →
      (FatChain part handle.context handle.firstCluster handle.clusterChain ∨
        handle.sizeBytes = 0 ∧ handle.clusterChain = []) ∧
      handle.clusterChain.Nodup ∧
      (∀ a ∈ (openFile caseInsensitiveFopen part path).log, Within part handle.context a) ∧
      ∀ loc count, loc + count ≤ handle.sizeBytes →
        (read part handle loc count).result =
          .ok (((contents part handle.context handle.clusterChain).drop loc).take count, count) ∧
        ∀ a ∈ (read part handle loc count).log, Within part handle.context a := by
  have hopen := openFile_ensures hknown caseInsensitiveFopen path
  constructor
  · intro s hs
    rw [hs] at hopen
    cases hopen
  intro handle hok
  obtain ⟨hsize, hsound, hlog⟩ := hopen.of_ok hok
  refine ⟨hsound.chain, ?_, hlog, ?_⟩
  · rcases hsound.chain with hchain | ⟨-, hnil⟩
    · exact hchain.nodup
    · rw [hnil]
      exact List.nodup_nil
  · intro loc count hfit
    obtain ⟨hreads, hresult⟩ := read_ensures hsize hsound hfit
    refine ⟨?_, hreads⟩
    cases hread : (read part handle loc count).result with
    | error e =>
      rw [hread] at hresult
      exact hresult.elim
    | ok r =>
      rw [hread] at hresult
      exact congrArg Except.ok hresult

/-! ## Two small volumes -/

/-- Eight sectors: the boot sector of a FAT12 volume, one for the table, one for the root directory, which
has the one entry `A`, and five for data.  The rest is up to `file`. -/
def smallVolume (file : List (Nat × UInt8)) : Volume where
  sectCount := 8
  byteAt a :=
    (([(12, 2), (13, 1), (14, 1), (16, 1), (17, 16), (19, 8), (22, 1), (0x36, 70), (0x37, 65), (0x38, 84),
      (1024, 65)] ++ (List.range 10).map (fun i => (1025 + i, (32 : UInt8))) ++ file).lookup a).getD 0
  medium := 0
  past _ _ := none

/-- Three bytes in cluster 2. -/
def threeBytes : Volume :=
  smallVolume [(515, 0xff), (516, 0x0f), (1050, 2), (1052, 3), (1536, 1), (1537, 2), (1538, 3)]

theorem openFile_reads_threeBytes :
    ∃ handle, (openFile false threeBytes [97]).result = .ok handle ∧ handle.clusterChain = [2] ∧
      (read threeBytes handle 1 2).result = .ok ([2, 3], 2) := by
  have hknown : threeBytes.sectCount ≠ noSectCount := by decide
  have hopen : ((openFile false threeBytes [97]).result.map fun handle =>
      (handle.clusterChain, handle.sizeBytes,
        ((contents threeBytes handle.context handle.clusterChain).drop 1).take 2)) =
      .ok ([2], 3, [2, 3]) := by
    decide +kernel
  cases hok : (openFile false threeBytes [97]).result with
  | error e =>
    rw [hok] at hopen
    cases hopen
  | ok handle =>
    rw [hok] at hopen
    obtain ⟨hchain, hrest⟩ := Prod.mk.inj (Except.ok.inj hopen)
    obtain ⟨hbytes, hcontents⟩ := Prod.mk.inj hrest
    refine ⟨handle, rfl, hchain, ?_⟩
    obtain ⟨-, -, -, hreads⟩ := (openFile_reads_clusters threeBytes hknown false [97]).2 handle hok
    rw [(hreads 1 2 (by omega)).1, hcontents]

/-- An empty file whose cluster 2 is followed by itself. -/
def circle : Volume := smallVolume [(515, 2), (1050, 2)]

/-- What the table has for an empty file may well have no end. -/
theorem openFile_reads_circle :
    ∃ handle, (openFile false circle [97]).result = .ok handle ∧
      ∀ chain, ¬FatChain circle handle.context handle.firstCluster chain := by
  have hknown : circle.sectCount ≠ noSectCount := by decide
  have hpath : components ((cString [97]).dropWhile (· = slash)) = [[97]] := by decide
  have hfound : ((initContext circle).result.bind fun context =>
      (openIn false circle context (rootDirectory context) [97]).result.map fun file =>
        (file.firstCluster context, file.fileSizeBytes, context.clusterLimit, entryOf circle context 2)) =
      .ok (2, 0, 0xfef, 2) := by
    decide +kernel
  cases hcontext : (initContext circle).result with
  | error e =>
    rw [hcontext] at hfound
    cases hfound
  | ok context =>
    rw [hcontext] at hfound
    cases hfile : (openIn false circle context (rootDirectory context) [97]).result with
    | error e =>
      rw [Except.bind, hfile] at hfound
      cases hfound
    | ok file =>
      rw [Except.bind, hfile] at hfound
      obtain ⟨hfirst, hrest⟩ := Prod.mk.inj (Except.ok.inj hfound)
      obtain ⟨hempty, hrest⟩ := Prod.mk.inj hrest
      obtain ⟨hlimit, hentry⟩ := Prod.mk.inj hrest
      obtain ⟨handle, hopen, hhandle, hcluster⟩ := openEntry_empty hknown context hempty
      refine ⟨handle, ?_, ?_⟩
      · rw [openFile_component hcontext hpath (by decide) (by decide) hfile, hopen]
      · intro chain hchain
        have hlive : InRange context 2 := ⟨Nat.le_refl 2, by omega⟩
        rw [hhandle, hcluster, hfirst] at hchain
        have hnodup := (Lib.Follow.step hlive (hentry ▸ hchain)).nodup
        cases hchain with
        | stop h => exact h hlive
        | step h rest => exact (List.nodup_cons.mp hnodup).1 (List.mem_cons_self ..)

end Limine.Fat32
