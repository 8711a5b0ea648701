import Limine.Iso9660.Records
import Limine.Fs.Touches

/-!
# What the search of a directory touches

`iso9660_find` and `load_name` once more, with what they read of the directory and what they read and
write of the buffer for names.  On any bytes they stay within the two, and no name is too long.
-/

namespace Limine.Iso9660
open Limine.Fs (cString strcmpEq strcasecmpEq Search Sizes Gives touch foldOf foldOf_zero foldOf_compare
  compareName compareName_gives)
open Limine.Lib (Traced)

abbrev Scan := Search Stop

/-! ## The functions -/

/-- `memcpy` behind what the buffer has. -/
def writeName : List UInt8 → List UInt8 → Scan (List UInt8)
  | [], buf => pure buf
  | c :: bytes, buf => do
    touch (.name buf.length)
    writeName bytes (buf ++ [c])

/-- The walk over the system use area, which is `len` bytes from `off` on. -/
def nmScan (buffer : List UInt8) (limit : Nat) : Nat → Nat → Nat → List UInt8 → Bool → Scan (List UInt8 × Bool)
  | 0, _, _, _, _ => Traced.fail .outOfFuel
  | fuel + 1, off, len, buf, foundNm =>
    if len < 4 then pure (buf, foundNm)
    else do
      touch (.directory off 4)
      let sysarea := (buffer.drop off).take len
      let entryLen := (sysarea.getD 2 0).toNat
      if sysarea.getD 3 0 ≠ 1 then pure (buf, foundNm)
      else if entryLen > len ∨ entryLen = 0 then pure (buf, foundNm)
      else if sysarea.getD 0 0 = 78 ∧ sysarea.getD 1 0 = 77 ∧ entryLen ≥ 5 then
        let fragLen := entryLen - 5
        if buf.length + fragLen ≥ limit then Traced.fail filenameSizeExceeded
        else do
          touch (.directory (off + 5) fragLen)
          let buf ← writeName ((sysarea.drop 5).take fragLen) buf
          touch (.directory (off + 4) 1)
          if sysarea.getD 4 0 &&& 1 = 0 then pure (buf, true)
          else nmScan buffer limit fuel (off + entryLen) (len - entryLen) buf true
      else nmScan buffer limit fuel (off + entryLen) (len - entryLen) buf foundNm

/-- The loop over the plain name, the rest of which is at `off`. -/
def copyPlain : Nat → List UInt8 → List UInt8 → Scan (List UInt8)
  | _, [], buf => pure buf
  | off, c :: rest, buf => do
    touch (.directory off 1)
    if c = 59 then pure buf
    else if c = 46 ∧ rest ≠ [] then do
      touch (.directory (off + 1) 1)
      if rest.head? = some 59 then pure buf
      else do
        touch (.name buf.length)
        copyPlain (off + 1) rest (buf ++ [c])
    else do
      touch (.name buf.length)
      copyPlain (off + 1) rest (buf ++ [c])

/-- `use_iso_name` -/
def plainScan (limit : Nat) (entry : DirectoryEntry) : Scan (List UInt8 × Bool) := do
  touch (.directory (entry.off + 32) 1)
  if entry.filenameSize ≥ limit then Traced.fail filenameSizeExceeded
  else do
    touch (.directory entry.off 1)
    let nameLen := if entry.length < sizeofDirectoryEntry + entry.filenameSize then
        entry.length - sizeofDirectoryEntry
      else entry.filenameSize
    let buf ← copyPlain (entry.off + sizeofDirectoryEntry) (entry.bytes sizeofDirectoryEntry nameLen) []
    touch (.name buf.length)
    pure (buf, false)

/-- Where the system use area starts in the record, and its length. -/
def systemUseRange (entry : DirectoryEntry) : Option (Nat × Nat) :=
  let start := sizeofDirectoryEntry + entry.filenameSize
  if entry.length < start then none
  else if entry.filenameSize % 2 = 0 then
    if entry.length - start = 0 then none else some (start + 1, entry.length - start - 1)
  else some (start, entry.length - start)

/-- `load_name` -/
def nameScan (limit : Nat) (entry : DirectoryEntry) : Scan (List UInt8 × Bool) := do
  touch (.directory entry.off 1)
  touch (.directory (entry.off + 32) 1)
  match systemUseRange entry with
  | none => plainScan limit entry
  | some (start, len) => do
    let (buf, foundNm) ← nmScan entry.buffer limit (len + 1) (entry.off + start) len [] false
    if foundNm then do
      touch (.name buf.length)
      pure (buf, true)
    else plainScan limit entry

def scanFrom (caseInsensitiveFopen : Bool) (buffer filename : List UInt8) :
    Nat → Nat → Nat → Scan (Option DirectoryEntry)
  | 0, _, _ => Traced.fail .outOfFuel
  | fuel + 1, off, size =>
    let entry : DirectoryEntry := ⟨buffer, off⟩
    if size = 0 then pure none
    else do
      touch (.directory off 1)
      if entry.length = 0 then
        if size ≤ iso9660SectorSize then pure none
        else
          let aligned := alignDown size iso9660SectorSize
          if size = aligned then
            scanFrom caseInsensitiveFopen buffer filename fuel (off + iso9660SectorSize) (size - iso9660SectorSize)
          else scanFrom caseInsensitiveFopen buffer filename fuel (off + (size - aligned)) aligned
      else if entry.length > size then pure none
      else if entry.length < sizeofDirectoryEntry then pure none
      else do
        let (entryFilename, rr) ← nameScan nameLimit entry
        -- the buffer as far as its NUL
        if ← compareName (foldOf (!(rr && !caseInsensitiveFopen))) (entryFilename ++ [0]) 0 filename then
          pure (some entry)
        else scanFrom caseInsensitiveFopen buffer filename fuel (off + entry.length) (size - entry.length)

/-- `iso9660_find` -/
def scan (caseInsensitiveFopen : Bool) (buffer filename : List UInt8) : Scan (Option DirectoryEntry) :=
  scanFrom caseInsensitiveFopen buffer filename (buffer.length + 1) 0 buffer.length

/-! ## Names -/

variable {sizes : Sizes}

theorem writeName_gives : ∀ bytes buf : List UInt8, buf.length + bytes.length ≤ sizes.name →
    Gives sizes (buf ++ bytes) (writeName bytes buf) := by
  intro bytes
  induction bytes with
  | nil =>
    intro buf _
    rw [List.append_nil]
    exact .pure _
  | cons c bytes ih =>
    intro buf hroom
    rw [List.length_cons] at hroom
    refine Gives.bind (Gives.touch (show buf.length < sizes.name by omega)) ?_
    have hrest := ih (buf ++ [c]) (by rw [List.length_append, List.length_singleton]; omega)
    rwa [List.append_assoc, List.singleton_append] at hrest

theorem copyPlain_gives : ∀ (name : List UInt8) (off : Nat) (buf : List UInt8),
    off + name.length ≤ sizes.directory → buf.length + name.length ≤ sizes.name →
    Gives sizes (buf ++ upToVersion name) (copyPlain off name buf) := by
  intro name
  induction name with
  | nil =>
    intro off buf _ _
    rw [upToVersion, List.append_nil]
    exact .pure _
  | cons c rest ih =>
    intro off buf hread hroom
    rw [List.length_cons] at hread hroom
    have hgo : Gives sizes (buf ++ c :: upToVersion rest)
        (do touch (.name buf.length); copyPlain (off + 1) rest (buf ++ [c])) := by
      refine Gives.bind (Gives.touch (show buf.length < sizes.name by omega)) ?_
      have hrest := ih (off + 1) (buf ++ [c]) (by omega) (by
        rw [List.length_append, List.length_singleton]
        omega)
      rwa [List.append_assoc, List.singleton_append] at hrest
    rw [upToVersion, copyPlain]
    refine Gives.bind (Gives.touch (show off + 1 ≤ sizes.directory by omega)) ?_
    by_cases hsemicolon : c = 59
    · rw [if_pos hsemicolon, if_pos hsemicolon, List.append_nil]
      exact .pure _
    rw [if_neg hsemicolon, if_neg hsemicolon]
    by_cases hdot : c = 46 ∧ rest ≠ []
    · rw [if_pos hdot]
      have hpos := List.length_pos_iff.mpr hdot.2
      refine Gives.bind (Gives.touch (show off + 1 + 1 ≤ sizes.directory by omega)) ?_
      by_cases hversion : rest.head? = some 59
      · rw [if_pos hversion, if_pos ⟨hdot.1, hversion⟩, List.append_nil]
        exact .pure _
      · rw [if_neg hversion, if_neg fun h => hversion h.2]
        exact hgo
    · rw [if_neg hdot, if_neg]
      · exact hgo
      · rintro ⟨hc, hhead⟩
        refine hdot ⟨hc, ?_⟩
        rintro rfl
        cases hhead

/-- The fragments of a name are shorter than the entries they are in, which share what a record has room
for. -/
theorem nmScan_gives {buffer : List UInt8} {limit : Nat} (hdirectory : buffer.length ≤ sizes.directory)
    (hname : limit ≤ sizes.name) : ∀ (fuel off len : Nat) (buf : List UInt8) (foundNm : Bool),
    len < fuel → off + len ≤ buffer.length → buf.length + len < limit →
    ∃ r, nmName limit fuel ((buffer.drop off).take len) buf foundNm = .ok r ∧ r.1.length < limit ∧
      Gives sizes r (nmScan buffer limit fuel off len buf foundNm) := by
  intro fuel
  induction fuel with
  | zero =>
    intro off len buf foundNm hfuel
    omega
  | succ fuel ih =>
    intro off len buf foundNm hfuel hfit hroom
    have hlen : ((buffer.drop off).take len).length = len := by
      rw [List.length_take, List.length_drop, Nat.min_eq_left (by omega)]
    have hstop : ∃ r, (Except.ok (buf, foundNm) : Exec _) = .ok r ∧ r.1.length < limit ∧
        Gives sizes r (pure (buf, foundNm) : Scan _) :=
      ⟨_, rfl, show buf.length < limit by omega, .pure _⟩
    rw [nmName, nmScan, hlen]
    dsimp only
    by_cases hshort : len < 4
    · rw [if_pos (Or.inl hshort), if_pos hshort]
      exact hstop
    rw [if_neg hshort]
    have htouch : Gives sizes () (touch (.directory off 4) : Scan Unit) :=
      Gives.touch (show off + 4 ≤ sizes.directory by omega)
    by_cases hversion : ((buffer.drop off).take len).getD 3 0 ≠ 1
    · rw [if_pos (Or.inr hversion), if_pos hversion]
      obtain ⟨r, hr, hlt, hgives⟩ := hstop
      exact ⟨r, hr, hlt, htouch.bind hgives⟩
    rw [if_neg (by tauto), if_neg hversion]
    have hrest : ∀ entryLen, ((buffer.drop off).take len).drop entryLen =
        (buffer.drop (off + entryLen)).take (len - entryLen) := by
      intro entryLen
      rw [List.drop_take, List.drop_drop]
    generalize hentry : (((buffer.drop off).take len).getD 2 0).toNat = entryLen
    by_cases hbad : entryLen > len ∨ entryLen = 0
    · rw [if_pos hbad, if_pos hbad]
      obtain ⟨r, hr, hlt, hgives⟩ := hstop
      exact ⟨r, hr, hlt, htouch.bind hgives⟩
    rw [if_neg hbad, if_neg hbad]
    by_cases hnm : ((buffer.drop off).take len).getD 0 0 = 78 ∧ ((buffer.drop off).take len).getD 1 0 = 77 ∧
        entryLen ≥ 5
    · have hfits : ¬buf.length + (entryLen - 5) ≥ limit := by omega
      rw [if_pos hnm, if_pos hnm, if_neg hfits, if_neg hfits]
      have hfrag : ((((buffer.drop off).take len).drop 5).take (entryLen - 5)).length = entryLen - 5 := by
        rw [List.length_take, List.length_drop, hlen, Nat.min_eq_left (by omega)]
      generalize (((buffer.drop off).take len).drop 5).take (entryLen - 5) = frag at hfrag
      have hwrite := @writeName_gives sizes frag buf (by omega)
      have hread : Gives sizes () (touch (.directory (off + 5) (entryLen - 5)) : Scan Unit) :=
        Gives.touch (show off + 5 + (entryLen - 5) ≤ sizes.directory by omega)
      have hflags : Gives sizes () (touch (.directory (off + 4) 1) : Scan Unit) :=
        Gives.touch (show off + 4 + 1 ≤ sizes.directory by omega)
      have hbuf : (buf ++ frag).length = buf.length + (entryLen - 5) := by rw [List.length_append, hfrag]
      by_cases hlast : ((buffer.drop off).take len).getD 4 0 &&& 1 = 0
      · rw [if_pos hlast]
        refine ⟨_, rfl, show (buf ++ frag).length < limit by omega,
          htouch.bind (hread.bind (hwrite.bind (hflags.bind ?_)))⟩
        rw [if_pos hlast]
        exact .pure _
      · rw [if_neg hlast, hrest]
        obtain ⟨r, hr, hlt, hgives⟩ := ih (off + entryLen) (len - entryLen) (buf ++ frag) true (by omega) (by omega)
          (by omega)
        refine ⟨r, hr, hlt, htouch.bind (hread.bind (hwrite.bind (hflags.bind ?_)))⟩
        rw [if_neg hlast]
        exact hgives
    · rw [if_neg hnm, if_neg hnm, hrest]
      obtain ⟨r, hr, hlt, hgives⟩ := ih (off + entryLen) (len - entryLen) buf foundNm (by omega) (by omega) (by omega)
      exact ⟨r, hr, hlt, htouch.bind hgives⟩

theorem field_one_lt (buffer : List UInt8) (off : Nat) : Part.field buffer off 1 < 256 := by
  have hlt := Lib.leNat_lt ((buffer.drop off).take 1)
  have hlen : ((buffer.drop off).take 1).length ≤ 1 := List.length_take_le _ _
  exact hlt.trans_le (Nat.pow_le_pow_right (by decide) hlen)

theorem length_upToVersion_le (name : List UInt8) : (upToVersion name).length ≤ name.length := by
  induction name with
  | nil => exact Nat.le_refl 0
  | cons c rest ih =>
    rw [upToVersion]
    split
    · exact Nat.zero_le _
    split
    · exact Nat.zero_le _
    · exact Nat.succ_le_succ ih

theorem systemUse_eq (entry : DirectoryEntry) : systemUseArea entry = (systemUseRange entry).map fun range => entry.bytes range.1 range.2 := by
  unfold systemUseArea systemUseRange
  dsimp only
  split
  · rfl
  split
  · split
    · rfl
    · rfl
  · rfl

section
variable {entry : DirectoryEntry} (hentry : entry.Whole) (hdirectory : entry.buffer.length ≤ sizes.directory)
  (hname : nameLimit ≤ sizes.name)
include hentry hdirectory hname

theorem plainScan_gives : ∃ r, useIsoName nameLimit entry = .ok r ∧ r.1.length < nameLimit ∧
    Gives sizes r (plainScan nameLimit entry) := by
  obtain ⟨hmin, hend⟩ := hentry
  have hsize : entry.filenameSize < nameLimit := field_one_lt ..
  have hlength : entry.length < 256 := field_one_lt ..
  unfold sizeofDirectoryEntry at hmin
  have hfits : ¬entry.filenameSize ≥ nameLimit := by omega
  unfold useIsoName plainScan
  rw [if_neg hfits, if_neg hfits]
  dsimp only
  generalize hlen : (if entry.length < sizeofDirectoryEntry + entry.filenameSize then
    entry.length - sizeofDirectoryEntry else entry.filenameSize) = nameLen
  have hle : sizeofDirectoryEntry + nameLen ≤ entry.length ∧ nameLen < nameLimit := by
    unfold nameLimit sizeofDirectoryEntry at *
    split at hlen <;> omega
  unfold sizeofDirectoryEntry at hle
  have hbytes : (entry.bytes sizeofDirectoryEntry nameLen).length ≤ nameLen := by
    unfold DirectoryEntry.bytes
    exact List.length_take_le _ _
  have hup := length_upToVersion_le (entry.bytes sizeofDirectoryEntry nameLen)
  have hcopy := @copyPlain_gives sizes (entry.bytes sizeofDirectoryEntry nameLen) (entry.off + sizeofDirectoryEntry) []
    (by unfold sizeofDirectoryEntry at *; omega) (by rw [List.length_nil]; omega)
  rw [List.nil_append] at hcopy
  refine ⟨_, rfl, show (upToVersion (entry.bytes sizeofDirectoryEntry nameLen)).length < nameLimit by omega, ?_⟩
  refine Gives.bind (Gives.touch (show entry.off + 32 + 1 ≤ sizes.directory by omega)) ?_
  refine Gives.bind (Gives.touch (show entry.off + 1 ≤ sizes.directory by omega)) ?_
  refine hcopy.bind (Gives.bind (Gives.touch (show _ < sizes.name by omega)) (.pure _))

theorem nameScan_gives : ∃ r, loadName nameLimit entry = .ok r ∧ r.1.length < nameLimit ∧
    Gives sizes r (nameScan nameLimit entry) := by
  obtain ⟨plain, hplain, hplainlt, hplaingives⟩ := plainScan_gives hentry hdirectory hname
  obtain ⟨hmin, hend⟩ := hentry
  have hlength : entry.length < 256 := field_one_lt ..
  unfold sizeofDirectoryEntry at hmin
  have htouch : Gives sizes () (touch (.directory entry.off 1) : Scan Unit) :=
    Gives.touch (show entry.off + 1 ≤ sizes.directory by omega)
  have htouch' : Gives sizes () (touch (.directory (entry.off + 32) 1) : Scan Unit) :=
    Gives.touch (show entry.off + 32 + 1 ≤ sizes.directory by omega)
  unfold loadName nameScan
  rw [systemUse_eq]
  cases hrange : systemUseRange entry with
  | none => exact ⟨plain, hplain, hplainlt, htouch.bind (htouch'.bind hplaingives)⟩
  | some range =>
    obtain ⟨start, len⟩ := range
    have hfit : sizeofDirectoryEntry ≤ start ∧ start + len ≤ entry.length := by
      unfold systemUseRange at hrange
      dsimp only at hrange
      split at hrange
      · cases hrange
      split at hrange
      · split at hrange
        · cases hrange
        · cases hrange
          omega
      · cases hrange
        omega
    unfold sizeofDirectoryEntry at hfit
    have hlen : (entry.bytes start len).length = len := by
      unfold DirectoryEntry.bytes
      rw [List.length_take, List.length_drop, Nat.min_eq_left (by omega)]
    obtain ⟨⟨buf, foundNm⟩, hnm, hlt, hgives⟩ := nmScan_gives hdirectory hname (len + 1) (entry.off + start) len []
      false (Nat.lt_succ_self len) (by omega) (by unfold nameLimit; rw [List.length_nil]; omega)
    show ∃ r, (nmName nameLimit ((entry.bytes start len).length + 1) (entry.bytes start len) [] false >>= _) = .ok r ∧ _
    rw [hlen]
    unfold DirectoryEntry.bytes
    rw [hnm]
    cases foundNm with
    | true =>
      refine ⟨(buf, true), rfl, hlt, htouch.bind (htouch'.bind (hgives.bind ?_))⟩
      exact Gives.bind (Gives.touch (Nat.lt_of_lt_of_le hlt hname)) (.pure _)
    | false => exact ⟨plain, hplain, hplainlt, htouch.bind (htouch'.bind (hgives.bind hplaingives))⟩

end

theorem cString_concat (name : List UInt8) : cString (name ++ [0]) = cString name := by
  unfold cString
  induction name with
  | nil => rfl
  | cons c name ih => rw [List.cons_append, List.takeWhile_cons, List.takeWhile_cons, ih]

/-- The comparison of a name that has been put together. -/
theorem compare_gives (sensitive : Bool) {name : List UInt8} (filename : List UInt8) (hlen : name.length < sizes.name) :
    Gives sizes (if sensitive then strcmpEq filename name else strcasecmpEq filename name)
      (compareName (foldOf (!sensitive)) (name ++ [0]) 0 filename : Scan Bool) := by
  have hlength : (name ++ [0]).length = name.length + 1 := by rw [List.length_append, List.length_singleton]
  have hgives := @compareName_gives Stop sizes _ (foldOf_zero (!sensitive)) (name ++ [0]) (by omega) filename 0
    name.length (Nat.zero_le _) (by omega) (by simp)
  rw [List.drop_zero, foldOf_compare] at hgives
  cases sensitive with
  | true =>
    unfold strcmpEq at hgives ⊢
    rw [cString_concat] at hgives
    simpa [eq_comm] using hgives
  | false =>
    unfold strcasecmpEq at hgives ⊢
    rw [cString_concat] at hgives
    simpa [eq_comm] using hgives

/-! ## The search -/

theorem scanFrom_gives (caseInsensitiveFopen : Bool) (buffer filename : List UInt8) {fuel off size : Nat}
    (hf : size < fuel) (hsize : off + size = buffer.length) :
    ∃ r, findFrom caseInsensitiveFopen buffer filename fuel off size = .ok r ∧
      Gives ⟨buffer.length, nameLimit⟩ r (scanFrom caseInsensitiveFopen buffer filename fuel off size) := by
  induction fuel generalizing off size with
  | zero => omega
  | succ fuel ih =>
    unfold findFrom scanFrom
    dsimp only
    by_cases hzero : size = 0
    · rw [if_pos hzero, if_pos hzero]
      exact ⟨none, rfl, .pure _⟩
    rw [if_neg hzero, if_neg hzero]
    have htouch : Gives ⟨buffer.length, nameLimit⟩ () (touch (.directory off 1) : Scan Unit) :=
      Gives.touch (show off + 1 ≤ buffer.length by omega)
    have hgo : ∀ off' size', size' < fuel → off' + size' = buffer.length →
        ∃ r, findFrom caseInsensitiveFopen buffer filename fuel off' size' = .ok r ∧
          Gives ⟨buffer.length, nameLimit⟩ r (do
            touch (.directory off 1)
            scanFrom caseInsensitiveFopen buffer filename fuel off' size') := by
      intro off' size' hf' hsize'
      obtain ⟨r, hr, hgives⟩ := ih hf' hsize'
      exact ⟨r, hr, htouch.bind hgives⟩
    have hnone : ∃ r, (Except.ok none : Exec (Option DirectoryEntry)) = .ok r ∧
        Gives ⟨buffer.length, nameLimit⟩ r (do touch (.directory off 1); pure none : Scan _) :=
      ⟨none, rfl, htouch.bind (.pure _)⟩
    generalize hentry : (⟨buffer, off⟩ : DirectoryEntry) = entry
    by_cases hlength : entry.length = 0
    · -- padding up to the next sector
      rw [if_pos hlength, if_pos hlength]
      by_cases hsector : size ≤ iso9660SectorSize
      · rw [if_pos hsector, if_pos hsector]
        exact hnone
      rw [if_neg hsector, if_neg hsector]
      unfold alignDown iso9660SectorSize at *
      by_cases haligned : size = size / 2048 * 2048
      · rw [if_pos haligned, if_pos haligned]
        exact hgo _ _ (by omega) (by omega)
      · rw [if_neg haligned, if_neg haligned]
        exact hgo _ _ (by omega) (by omega)
    rw [if_neg hlength, if_neg hlength]
    by_cases hlong : entry.length > size
    · rw [if_pos hlong, if_pos hlong]
      exact hnone
    rw [if_neg hlong, if_neg hlong]
    by_cases hshort : entry.length < sizeofDirectoryEntry
    · rw [if_pos hshort, if_pos hshort]
      exact hnone
    rw [if_neg hshort, if_neg hshort]
    have hwhole : entry.Whole := by
      refine ⟨Nat.le_of_not_lt hshort, ?_⟩
      rw [← hentry] at hlong ⊢
      show off + _ ≤ buffer.length
      omega
    have hbuffer : entry.buffer = buffer := by rw [← hentry]
    obtain ⟨⟨name, rr⟩, hname, hlt, hnamegives⟩ := @nameScan_gives ⟨buffer.length, nameLimit⟩ entry hwhole
      (by rw [hbuffer]) (Nat.le_refl _)
    have hcompare := @compare_gives ⟨buffer.length, nameLimit⟩ (rr && !caseInsensitiveFopen) name filename hlt
    obtain ⟨r, hr, hrest⟩ := @ih (off + entry.length) (size - entry.length) (by omega) (by omega)
    rw [hname]
    have hsame : ∀ same : Bool, ∃ r, (if same then .ok (some entry) else
          findFrom caseInsensitiveFopen buffer filename fuel (off + entry.length) (size - entry.length)) = .ok r ∧
        Gives ⟨buffer.length, nameLimit⟩ r (if same then pure (some entry) else
          scanFrom caseInsensitiveFopen buffer filename fuel (off + entry.length) (size - entry.length)) := by
      intro same
      cases same with
      | true => exact ⟨_, rfl, .pure _⟩
      | false => exact ⟨r, hr, hrest⟩
    obtain ⟨r', hr', hgives⟩ := hsame (if rr && !caseInsensitiveFopen then strcmpEq filename name
      else strcasecmpEq filename name)
    refine ⟨r', ?_, htouch.bind (hnamegives.bind (hcompare.bind hgives))⟩
    rw [← hr']
    show (if rr && !caseInsensitiveFopen then _ else _) = _
    cases rr && !caseInsensitiveFopen with
    | true => rfl
    | false => rfl

/-- **On any directory the search ends, stays in the directory and in the buffer for names, and gives a
record that is wholly in the directory.** -/
theorem scan_inside (caseInsensitiveFopen : Bool) (buffer filename : List UInt8) :
    (∀ a ∈ (scan caseInsensitiveFopen buffer filename).log, a.Inside ⟨buffer.length, nameLimit⟩) ∧
      ∃ r, (scan caseInsensitiveFopen buffer filename).result = .ok r ∧
        find caseInsensitiveFopen buffer filename = .ok r ∧
        ∀ entry, r = some entry → entry.buffer = buffer ∧ entry.Whole := by
  obtain ⟨r, hr, hgives⟩ := scanFrom_gives caseInsensitiveFopen buffer filename (Nat.lt_succ_self buffer.length)
    (Nat.zero_add _)
  refine ⟨hgives.1, r, hgives.result, hr, ?_⟩
  intro entry hentry
  have hfound := (find_ensures caseInsensitiveFopen buffer filename).of_ok hr entry hentry
  exact ⟨hfound.here, hfound.whole⟩

end Limine.Iso9660
