import Limine.Fat32.Lookup
import Limine.Fs.Touches

/-!
# What the lookup touches

The loop of `fat32_open_in` once more, with every byte of its two buffers that it reads or writes.  It
does what it does without the trace, within the directory and within the buffer of the long name.
-/

namespace Limine.Fat32
open Limine.Fs (cString strcmpEq strcasecmpEq strncmpEq Search Sizes Gives touch foldOf foldOf_zero foldOf_compare
  compareName compareName_gives)
open Limine.Menu (CString)

abbrev Scan := Search Empty

/-! ## The functions -/

def entryAt (directoryEntries : List UInt8) (i : Nat) : Scan LfnEntry := do
  touch (.directory (i * sizeofDirectoryEntry) sizeofDirectoryEntry)
  pure (entryBytes directoryEntries i)

/-- `memset(current_lfn, ' ', sizeof(current_lfn))`, `left` bytes of it. -/
def clearName : Nat → List UInt8 → Scan (List UInt8)
  | 0, current => pure current
  | left + 1, current => do
    touch (.name (fat32LfnMaxFilenameLength - (left + 1)))
    clearName left (current.set (fat32LfnMaxFilenameLength - (left + 1)) 32)

/-- The loop of `fat32_lfncpy`, `left` characters before its end. -/
def copyName (destOffset : Nat) (source : List UInt8) (size : Nat) : Nat → List UInt8 → Scan (List UInt8)
  | 0, current => pure current
  | left + 1, current =>
    if destOffset + (size - (left + 1)) ≥ fat32LfnMaxFilenameLength then pure current
    else do
      touch (.name (destOffset + (size - (left + 1))))
      copyName destOffset source size left
        (current.set (destOffset + (size - (left + 1))) (source.getD ((size - (left + 1)) * 2) 0))

/-- The loop that removes the trailing spaces, at `j - 1`. -/
def trimName : Nat → List UInt8 → Scan (List UInt8)
  | 0, current => do
    touch (.name 0)
    pure (current.set 0 0)
  | j + 1, current => do
    touch (.name j)
    if current.getD j 0 ≠ 32 then do
      touch (.name (j + 1))
      pure (current.set (j + 1) 0)
    else trimName j current

/-- What the first entry of a name does to the state. -/
def startName (lfn : Lfn) (entry : LfnEntry) : Scan Lfn :=
  if entry.startsSet then do
    let current ← clearName fat32LfnMaxFilenameLength lfn.current
    pure { current, expected := entry.number, checksum := entry.dosChecksum }
  else pure lfn

def collect (lfn : Lfn) (entry : LfnEntry) : Scan (Lfn × Bool) := do
  let lfn ← startName lfn entry
  if entry.number = 0 ∨ entry.number ≠ lfn.expected ∨ entry.dosChecksum ≠ lfn.checksum then
    pure (lfn.invalidate, false)
  else
    let lfn := { lfn with expected := lfn.expected - 1 }
    let lfnIndex := (entry.number - 1) * 13
    if lfnIndex ≥ fat32LfnMaxEntries * 13 then pure (lfn.invalidate, false)
    else do
      let current ← copyName lfnIndex entry.name1 5 5 lfn.current
      let current ← copyName (lfnIndex + 5) entry.name2 6 6 current
      let current ← copyName (lfnIndex + 11) entry.name3 2 2 current
      if entry.number ≠ 1 then pure ({ lfn with current }, false)
      else do
        let current ← trimName (fat32LfnMaxFilenameLength - 1) current
        pure ({ lfn with current }, true)

/-- The loop over the entries, with its touches. -/
def scanFrom (caseInsensitiveFopen : Bool) (directoryEntries : List UInt8) (total : Nat) (name : CString) :
    Nat → Nat → Lfn → Scan (Option DirectoryEntry)
  | 0, _, _ => pure none
  | left + 1, i, lfn => do
    let bytes ← entryAt directoryEntries i
    let entry := DirectoryEntry.ofBytes bytes
    if entry.fileNameAndExt.getD 0 0 = 0x00 then pure none
    else if entry.attributes = lfnAttribute then
      if entry.fileNameAndExt.getD 0 0 = 0xe5 then
        scanFrom caseInsensitiveFopen directoryEntries total name left (i + 1) lfn.invalidate
      else do
        let (lfn, whole) ← collect lfn bytes
        if !whole then scanFrom caseInsensitiveFopen directoryEntries total name left (i + 1) lfn
        else do
          if ← compareName (foldOf caseInsensitiveFopen) lfn.current 0 name then
            if i + 1 ≥ total then
              scanFrom caseInsensitiveFopen directoryEntries total name left (i + 1) lfn.invalidate
            else do
              let sfnBytes ← entryAt directoryEntries (i + 1)
              let sfnEntry := DirectoryEntry.ofBytes sfnBytes
              if sfnMatches sfnEntry lfn then pure (some sfnEntry)
              else scanFrom caseInsensitiveFopen directoryEntries total name left (i + 1) lfn.invalidate
          else scanFrom caseInsensitiveFopen directoryEntries total name left (i + 1) lfn
    else if entry.attributes &&& attributeVollabel ≠ 0 then
      scanFrom caseInsensitiveFopen directoryEntries total name left (i + 1) lfn
    else
      match filenameTo83 name with
      | none => scanFrom caseInsensitiveFopen directoryEntries total name left (i + 1) lfn
      | some fn =>
        if strncmpEq entry.fileNameAndExt fn (8 + 3) then pure (some entry)
        else scanFrom caseInsensitiveFopen directoryEntries total name left (i + 1) lfn

/-- The lookup in a directory that is in memory. -/
def scan (caseInsensitiveFopen : Bool) (directoryEntries : List UInt8) (name : CString) :
    Scan (Option DirectoryEntry) :=
  let total := directoryEntries.length / sizeofDirectoryEntry
  scanFrom caseInsensitiveFopen directoryEntries total name total 0 .empty

/-! ## Within the buffers -/

/-- The buffers of the lookup. -/
def buffers (directoryEntries : List UInt8) : Sizes := ⟨directoryEntries.length, fat32LfnMaxFilenameLength⟩

variable {directoryEntries : List UInt8}

theorem entryAt_gives {i : Nat} (h : i < directoryEntries.length / sizeofDirectoryEntry) :
    Gives (buffers directoryEntries) (entryBytes directoryEntries i) (entryAt directoryEntries i) := by
  refine Gives.bind (Gives.touch ?_) (.pure _)
  show i * sizeofDirectoryEntry + sizeofDirectoryEntry ≤ directoryEntries.length
  unfold sizeofDirectoryEntry at h ⊢
  omega

theorem clearName_gives : ∀ (left : Nat) (current : List UInt8), left ≤ fat32LfnMaxFilenameLength →
    current.length = fat32LfnMaxFilenameLength →
    Gives (buffers directoryEntries) (current.take (fat32LfnMaxFilenameLength - left) ++ spaces left)
      (clearName left current) := by
  intro left
  induction left with
  | zero =>
    intro current _ hlen
    rw [Nat.sub_zero, ← hlen, List.take_length]
    unfold spaces
    rw [List.replicate_zero, List.append_nil]
    exact .pure _
  | succ left ih =>
    intro current hle hlen
    rw [clearName]
    refine Gives.bind (Gives.touch (show _ < fat32LfnMaxFilenameLength by omega)) ?_
    have hrest := ih (current.set (fat32LfnMaxFilenameLength - (left + 1)) 32) (by omega) (by
      rw [List.length_set, hlen])
    have hnext : fat32LfnMaxFilenameLength - left = fat32LfnMaxFilenameLength - (left + 1) + 1 := by omega
    rw [hnext, List.take_add_one, List.take_set_of_le (Nat.le_refl _), List.getElem?_set_self (by omega),
      Option.toList_some, List.append_assoc] at hrest
    exact hrest

theorem lfncpy_succ (dest source : List UInt8) (offset size : Nat) : lfncpy dest offset source (size + 1) =
    (lfncpy dest offset source size).set (offset + size) (source.getD (size * 2) 0) := by
  unfold lfncpy
  rw [List.range_succ, List.foldl_append]
  rfl

theorem length_lfncpy (dest source : List UInt8) (offset : Nat) : ∀ size,
    (lfncpy dest offset source size).length = dest.length := by
  intro size
  induction size with
  | zero => rfl
  | succ size ih => rw [lfncpy_succ, List.length_set, ih]

theorem copyName_gives {dest source : List UInt8} {offset size : Nat} (hroom : offset + size ≤ fat32LfnMaxFilenameLength) :
    ∀ left, left ≤ size → Gives (buffers directoryEntries) (lfncpy dest offset source size)
      (copyName offset source size left (lfncpy dest offset source (size - left))) := by
  intro left
  induction left with
  | zero =>
    intro _
    exact .pure _
  | succ left ih =>
    intro hle
    rw [copyName, if_neg (by omega)]
    refine Gives.bind (Gives.touch (show _ < fat32LfnMaxFilenameLength by omega)) ?_
    rw [← lfncpy_succ, show size - (left + 1) + 1 = size - left by omega]
    exact ih (by omega)

theorem trimName_gives {current : List UInt8} (hlen : current.length = fat32LfnMaxFilenameLength) :
    ∀ j, j < fat32LfnMaxFilenameLength → Gives (buffers directoryEntries)
      (current.set ((current.take j).reverse.dropWhile fun c => c = 32).length 0) (trimName j current) := by
  intro j
  induction j with
  | zero =>
    intro hj
    exact Gives.bind (Gives.touch hj) (.pure _)
  | succ j ih =>
    intro hj
    have hget : current[j]? = some (current.getD j 0) := by
      rw [List.getElem?_eq_getElem (by omega), ← List.getD_eq_getElem _ 0 (by omega)]
    rw [trimName, List.take_add_one, hget, Option.toList_some, List.reverse_concat]
    refine Gives.bind (Gives.touch (show j < fat32LfnMaxFilenameLength by omega)) ?_
    by_cases hspace : current.getD j 0 = 32
    · rw [if_neg (not_not.mpr hspace), List.dropWhile_cons_of_pos (by rw [hspace]; rfl)]
      exact ih (by omega)
    · rw [if_pos hspace, List.dropWhile_cons_of_neg (by simpa using hspace), List.length_cons, List.length_reverse,
        List.length_take, Nat.min_eq_left (by omega)]
      exact Gives.bind (Gives.touch hj) (.pure _)

theorem length_started {lfn : Lfn} (entry : LfnEntry) (hlen : lfn.current.length = fat32LfnMaxFilenameLength) :
    (lfn.started entry).current.length = fat32LfnMaxFilenameLength := by
  unfold Lfn.started
  split
  · exact length_spaces _
  · exact hlen

theorem length_trimmed (lfn : Lfn) : lfn.trimmed.length = lfn.current.length := List.length_set ..

/-- The trimmed buffer has a NUL. -/
theorem trimmed_nul {lfn : Lfn} (hlen : lfn.current.length = fat32LfnMaxFilenameLength) :
    ∃ k, k < fat32LfnMaxFilenameLength ∧ lfn.trimmed.getD k 0 = 0 := by
  have hle : ((lfn.current.take (fat32LfnMaxFilenameLength - 1)).reverse.dropWhile fun c => c = 32).length ≤
      (lfn.current.take (fat32LfnMaxFilenameLength - 1)).reverse.length := (List.dropWhile_sublist _).length_le
  rw [List.length_reverse, List.length_take, hlen] at hle
  unfold Lfn.trimmed
  generalize ((lfn.current.take (fat32LfnMaxFilenameLength - 1)).reverse.dropWhile fun c => c = 32).length = q at hle
  have hlt : q < fat32LfnMaxFilenameLength := by
    unfold fat32LfnMaxFilenameLength at hle ⊢
    omega
  exact ⟨q, hlt, by rw [List.getD_eq_getElem _ _ (by rw [List.length_set, hlen]; exact hlt), List.getElem_set_self]⟩

/-- What taking in an entry keeps of the buffer. -/
theorem take_buffer {lfn : Lfn} (entry : LfnEntry) (hlen : lfn.current.length = fat32LfnMaxFilenameLength) :
    (lfn.take entry).1.current.length = fat32LfnMaxFilenameLength ∧
      ((lfn.take entry).2 = true → ∃ k, k < fat32LfnMaxFilenameLength ∧ (lfn.take entry).1.current.getD k 0 = 0) := by
  have hstarted := length_started entry hlen
  rw [take_eq]
  generalize lfn.started entry = started at hstarted
  dsimp only
  by_cases hmatch : entry.number = 0 ∨ entry.number ≠ started.expected ∨ entry.dosChecksum ≠ started.checksum
  · rw [if_pos hmatch]
    exact ⟨hstarted, fun h => absurd h Bool.false_ne_true⟩
  rw [if_neg hmatch]
  by_cases hfar : (entry.number - 1) * 13 ≥ fat32LfnMaxEntries * 13
  · rw [if_pos hfar]
    exact ⟨hstarted, fun h => absurd h Bool.false_ne_true⟩
  rw [if_neg hfar]
  generalize hcopied : lfncpy (lfncpy (lfncpy started.current ((entry.number - 1) * 13) entry.name1 5)
    ((entry.number - 1) * 13 + 5) entry.name2 6) ((entry.number - 1) * 13 + 11) entry.name3 2 = copied
  have hcopiedLen : copied.length = fat32LfnMaxFilenameLength := by
    rw [← hcopied, length_lfncpy, length_lfncpy, length_lfncpy, hstarted]
  by_cases hnumber : entry.number ≠ 1
  · rw [if_pos hnumber]
    exact ⟨hcopiedLen, fun h => absurd h Bool.false_ne_true⟩
  · rw [if_neg hnumber]
    refine ⟨?_, fun _ => trimmed_nul hcopiedLen⟩
    rw [length_trimmed]
    exact hcopiedLen

theorem startName_gives {lfn : Lfn} (entry : LfnEntry) (hlen : lfn.current.length = fat32LfnMaxFilenameLength) :
    Gives (buffers directoryEntries) (lfn.started entry) (startName lfn entry) := by
  unfold startName Lfn.started
  cases entry.startsSet with
  | false => exact .pure _
  | true =>
    have hclear := @clearName_gives directoryEntries _ _ (Nat.le_refl _) hlen
    rw [Nat.sub_self, List.take_zero, List.nil_append] at hclear
    exact hclear.bind (.pure _)

theorem copyWhole_gives {dest source : List UInt8} {offset size : Nat}
    (hroom : offset + size ≤ fat32LfnMaxFilenameLength) :
    Gives (buffers directoryEntries) (lfncpy dest offset source size) (copyName offset source size size dest) := by
  have h := @copyName_gives directoryEntries dest source offset size hroom size (Nat.le_refl _)
  rwa [Nat.sub_self] at h

theorem collect_gives {lfn : Lfn} (entry : LfnEntry) (hlen : lfn.current.length = fat32LfnMaxFilenameLength) :
    Gives (buffers directoryEntries) (lfn.take entry) (collect lfn entry) := by
  have hstarted := length_started entry hlen
  rw [take_eq]
  unfold collect
  refine (startName_gives entry hlen).bind ?_
  generalize lfn.started entry = started at hstarted
  dsimp only
  by_cases hmatch : entry.number = 0 ∨ entry.number ≠ started.expected ∨ entry.dosChecksum ≠ started.checksum
  · rw [if_pos hmatch, if_pos hmatch]
    exact .pure _
  rw [if_neg hmatch, if_neg hmatch]
  by_cases hfar : (entry.number - 1) * 13 ≥ fat32LfnMaxEntries * 13
  · rw [if_pos hfar, if_pos hfar]
    exact .pure _
  rw [if_neg hfar, if_neg hfar]
  have hroom : (entry.number - 1) * 13 + 13 ≤ fat32LfnMaxFilenameLength := by
    unfold fat32LfnMaxFilenameLength
    omega
  refine (copyWhole_gives (by omega)).bind ?_
  refine (copyWhole_gives (by omega)).bind ?_
  refine (copyWhole_gives (by omega)).bind ?_
  generalize hcopied : lfncpy (lfncpy (lfncpy started.current ((entry.number - 1) * 13) entry.name1 5)
    ((entry.number - 1) * 13 + 5) entry.name2 6) ((entry.number - 1) * 13 + 11) entry.name3 2 = copied
  have hcopiedLen : copied.length = fat32LfnMaxFilenameLength := by
    rw [← hcopied, length_lfncpy, length_lfncpy, length_lfncpy, hstarted]
  by_cases hnumber : entry.number ≠ 1
  · rw [if_pos hnumber, if_pos hnumber]
    exact .pure _
  · rw [if_neg hnumber, if_neg hnumber]
    refine (trimName_gives hcopiedLen _ ?_).bind (.pure _)
    unfold fat32LfnMaxFilenameLength
    omega

theorem scanFrom_gives (caseInsensitiveFopen : Bool) (name : CString) : ∀ (left i : Nat) (lfn : Lfn),
    left + i = directoryEntries.length / sizeofDirectoryEntry → lfn.current.length = fat32LfnMaxFilenameLength →
    Gives (buffers directoryEntries)
      (findIn caseInsensitiveFopen directoryEntries (directoryEntries.length / sizeofDirectoryEntry) name left i lfn)
      (scanFrom caseInsensitiveFopen directoryEntries (directoryEntries.length / sizeofDirectoryEntry) name left i
        lfn) := by
  intro left
  induction left with
  | zero =>
    intro i lfn _ _
    exact .pure _
  | succ left ih =>
    intro i lfn htotal hlen
    rw [findIn.eq_def, scanFrom.eq_def]
    dsimp only
    refine (entryAt_gives (by omega)).bind ?_
    have hnext : ∀ lfn' : Lfn, lfn'.current.length = fat32LfnMaxFilenameLength → _ :=
      fun lfn' => ih (i + 1) lfn' (by omega)
    refine .ite (fun _ => .pure _) fun _ => ?_
    refine .ite (fun _ => ?_) fun _ => ?_
    · refine .ite (fun _ => hnext _ hlen) fun _ => ?_
      obtain ⟨hlen', hnul⟩ := take_buffer (entryBytes directoryEntries i) hlen
      refine (collect_gives _ hlen).bind ?_
      obtain ⟨⟨lfn', whole⟩, htake⟩ : ∃ taken, lfn.take (entryBytes directoryEntries i) = taken := ⟨_, rfl⟩
      rw [htake] at hlen' hnul ⊢
      dsimp only at hlen' hnul ⊢
      cases whole with
      | false => exact hnext _ hlen'
      | true =>
        obtain ⟨k, hk, hzero⟩ := hnul rfl
        refine (compareName_gives (foldOf_zero caseInsensitiveFopen) (Nat.le_of_eq hlen') name 0 k (Nat.zero_le k)
          (by rw [hlen']; exact hk) hzero).bind ?_
        rw [List.drop_zero, foldOf_compare, if_neg (by decide : ¬(!true) = true)]
        generalize (if caseInsensitiveFopen then strcasecmpEq lfn'.current name
          else strcmpEq lfn'.current name) = same
        cases same with
        | false => exact hnext _ hlen'
        | true =>
          rw [if_pos rfl]
          refine .ite (fun _ => hnext _ hlen') fun hmore => ?_
          refine (entryAt_gives (by omega)).bind ?_
          exact .ite (fun _ => .pure _) fun _ => hnext _ hlen'
    refine .ite (fun _ => hnext _ hlen) fun _ => ?_
    cases filenameTo83 name with
    | none => exact hnext _ hlen
    | some fn => exact .ite (fun _ => .pure _) fun _ => hnext _ hlen

/-! ## The lookup -/

theorem firstTaken_finds_iff {caseInsensitiveFopen : Bool} {name : CString} {entries : List LfnEntry}
    {file : Option DirectoryEntry} (h : FirstTaken caseInsensitiveFopen name entries file) :
    Finds caseInsensitiveFopen name entries file ↔
      ∀ i entry, entries[i]? = some entry → Mistaken caseInsensitiveFopen name entries i →
        (∀ j, j < i → ¬Named caseInsensitiveFopen name entries j ∧ ¬Mistaken caseInsensitiveFopen name entries j) →
        Finds caseInsensitiveFopen name entries (some (.ofBytes entry)) := by
  constructor
  · intro hfinds i entry hentry hmistaken hfirst
    rcases h with ⟨k, taken, htaken, hk, hnone, rfl⟩ | ⟨hnone, rfl⟩
    · have hik : i = k := by
        rcases Nat.lt_trichotomy i k with hlt | heq | hgt
        · exact absurd ((taken_iff i).mpr (Or.inr hmistaken)) (hnone i hlt)
        · exact heq
        · rcases (taken_iff k).mp hk with hnamed | hmis
          · exact absurd hnamed (hfirst k hgt).1
          · exact absurd hmis (hfirst k hgt).2
      subst hik
      rw [hentry, Option.some.injEq] at htaken
      rw [htaken]
      exact hfinds
    · exact absurd ((taken_iff i).mpr (Or.inr hmistaken)) (hnone i)
  · intro hright
    rcases h with ⟨k, taken, htaken, hk, hnone, rfl⟩ | ⟨hnone, rfl⟩
    · have hbefore : ∀ j, j < k → ¬Named caseInsensitiveFopen name entries j ∧
          ¬Mistaken caseInsensitiveFopen name entries j :=
        fun j hj => ⟨fun hn => hnone j hj ((taken_iff j).mpr (Or.inl hn)),
          fun hm => hnone j hj ((taken_iff j).mpr (Or.inr hm))⟩
      rcases (taken_iff k).mp hk with hnamed | hmistaken
      · exact Or.inl ⟨k, taken, htaken, hnamed, fun j hj => (hbefore j hj).1, rfl⟩
      · exact hright k taken htaken hmistaken hbefore
    · exact Or.inr ⟨fun i hn => hnone i ((taken_iff i).mpr (Or.inl hn)), rfl⟩

/-- **The lookup stays in its buffers and gives the entry of the name, but where it takes another before
it for that one.** -/
theorem scan_finds_iff (caseInsensitiveFopen : Bool) (directoryEntries : List UInt8) (name : CString) :
    (∀ a ∈ (scan caseInsensitiveFopen directoryEntries name).log, a.Inside (buffers directoryEntries)) ∧
    ∃ file, (scan caseInsensitiveFopen directoryEntries name).result = .ok file ∧
      (Finds caseInsensitiveFopen name (entriesOf directoryEntries) file ↔
        ∀ i entry, (entriesOf directoryEntries)[i]? = some entry →
          Mistaken caseInsensitiveFopen name (entriesOf directoryEntries) i →
          (∀ j, j < i → ¬Named caseInsensitiveFopen name (entriesOf directoryEntries) j ∧
            ¬Mistaken caseInsensitiveFopen name (entriesOf directoryEntries) j) →
          Finds caseInsensitiveFopen name (entriesOf directoryEntries) (some (.ofBytes entry))) := by
  have hgives := @scanFrom_gives directoryEntries caseInsensitiveFopen name
    (directoryEntries.length / sizeofDirectoryEntry) 0 .empty (Nat.add_zero _) List.length_replicate
  have hfirst := findIn_spec caseInsensitiveFopen directoryEntries name
    (directoryEntries.length / sizeofDirectoryEntry) 0 .empty (Nat.add_zero _) ⟨tracks_empty, nofun, nofun, by
      rintro entry - - ⟨-, -, ⟨last, hlast, -⟩, -⟩
      rw [List.take_zero] at hlast
      cases hlast⟩
  exact ⟨hgives.1, _, hgives.result, firstTaken_finds_iff hfirst⟩

/-- A directory with one entry, that of a deleted file `?BC`. -/
def deletedDirectory : List UInt8 :=
  [0xe5, 66, 67, 32, 32, 32, 32, 32, 32, 32, 32, 0x20] ++ List.replicate 20 0

/-- The name that the deleted entry is left with is found. -/
theorem scan_finds_deleted : ¬∃ file, (scan false deletedDirectory [0xe5, 66, 67]).result = .ok file ∧
    Finds false [0xe5, 66, 67] (entriesOf deletedDirectory) file := by
  rintro ⟨file, hrun, hfinds⟩
  have hfound : (scan false deletedDirectory [0xe5, 66, 67]).result =
      .ok (some (.ofBytes deletedDirectory)) := by decide
  rw [hfound, Except.ok.injEq] at hrun
  rw [← hrun] at hfinds
  rcases hfinds with ⟨i, entry, hentry, ⟨entry', hentry', -, hlive, -⟩, -⟩ | ⟨-, hnone⟩
  · have hlt := (List.getElem?_eq_some_iff.mp hentry').1
    rw [length_entriesOf] at hlt
    have hone : deletedDirectory.length / sizeofDirectoryEntry = 1 := by decide
    obtain rfl : i = 0 := by omega
    have hbytes : (entriesOf deletedDirectory)[0]? = some deletedDirectory := by decide
    rw [hbytes, Option.some.injEq] at hentry'
    rw [← hentry'] at hlive
    exact hlive.notDeleted (by decide)
  · cases hnone

end Limine.Fat32
