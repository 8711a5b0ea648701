import Limine.Iso9660.Records
import Mathlib

/-!
# A file is its extents

The record a path ends at and the records that continue it are the file's extents, in that order: the
pass that fills the array sees the records the pass that counts has seen.  A read inside the file gives
the bytes of the extents put together.
-/

namespace Limine.Iso9660
open Limine.Fs (Volume cString strcmpEq cString_ne_zero)
open Limine.Menu (CString)

/-- The two records have names, and the names are the same string. -/
def SameName (a b : DirectoryEntry) : Prop :=
  ∃ x y, loadName nameLimit a = .ok x ∧ loadName nameLimit b = .ok y ∧ cString x.1 = cString y.1

/-- `n` comes right behind `e` and goes on with the file that begins at `first`. -/
def Continues (first e n : DirectoryEntry) : Prop := e.isMultiExtent ∧ Follows e n ∧ SameName first n

/-- The file's records: `first`, then one after the other what continues it, up to the limit or to
where nothing does. -/
structure IsRun (first : DirectoryEntry) (run : List DirectoryEntry) : Prop where
  head : run.head? = some first
  chain : run.IsChain (Continues first)
  bounded : run.length ≤ iso9660MaxExtentCount
  maximal : run.length = iso9660MaxExtentCount ∨
    ∀ e ∈ run.getLast?, ∀ n, ¬Continues first e n

/-! ## The two passes -/

/-- What the passes need of a record they are at. -/
structure Sound (e : DirectoryEntry) : Prop where
  whole : e.Whole
  small : e.buffer.length ≤ iso9660MaxDirSize

theorem Sound.nextEntry_iff {e n : DirectoryEntry} (h : Sound e) : nextEntry e = some n ↔ Follows e n := by
  apply Iso9660.nextEntry_iff h.whole.length_ne_zero
  have hfit := h.whole.2
  have hsmall := h.small
  unfold iso9660MaxDirSize at hsmall
  omega

theorem Sound.next {e n : DirectoryEntry} (h : Sound e) (hn : Follows e n) : Sound n := by
  refine ⟨hn.2.1, ?_⟩
  rw [hn.1]
  exact h.small

/-- The records behind `e` that the file goes on with, as the two passes see them. -/
structure Rest (first e : DirectoryEntry) (count : Nat) (rest : List DirectoryEntry) (result : Nat × Nat)
    (total : Nat) : Prop where
  counted : result.1 = count + rest.length
  summed : result.2 = total + (rest.map DirectoryEntry.extentSize).sum
  filled : fillExtents (rest.length + 1) e = (e :: rest).map extentOf
  chain : (e :: rest).IsChain (Continues first)
  bounded : result.1 ≤ iso9660MaxExtentCount
  maximal : result.1 = iso9660MaxExtentCount ∨ ∀ l ∈ (e :: rest).getLast?, ∀ n, ¬Continues first l n

theorem Rest.none {first e : DirectoryEntry} {count total : Nat} (hcount : count < iso9660MaxExtentCount)
    (hnone : ∀ n, ¬Continues first e n) : Rest first e count [] (count, total) total where
  counted := rfl
  summed := rfl
  filled := rfl
  chain := .singleton e
  bounded := Nat.le_of_lt hcount
  maximal := by
    refine Or.inr ?_
    intro l hl
    cases hl
    exact hnone

theorem fillExtents_cons {e n : DirectoryEntry} {count : Nat} (h : nextEntry e = some n) :
    fillExtents (count + 2) e = extentOf e :: fillExtents (count + 1) n := by
  rw [fillExtents, if_neg (Nat.succ_ne_zero count), h]

theorem Rest.cons {first e n : DirectoryEntry} {count total : Nat} {rest : List DirectoryEntry}
    {result : Nat × Nat} (hn : nextEntry e = some n) (hcont : Continues first e n)
    (h : Rest first n (count + 1) rest result (total + n.extentSize)) :
    Rest first e count (n :: rest) result total where
  counted := by
    rw [h.counted, List.length_cons]
    omega
  summed := by
    rw [h.summed, List.map_cons, List.sum_cons]
    omega
  filled := by
    rw [List.length_cons, fillExtents_cons hn, h.filled]
    rfl
  chain := h.chain.cons_cons hcont
  bounded := h.bounded
  maximal := by
    rw [List.getLast?_cons_cons]
    exact h.maximal

theorem countExtents_ensures {first : DirectoryEntry} {baseName : List UInt8} {rr : Bool}
    (hbase : loadName nameLimit first = .ok (baseName, rr)) (hname : cString baseName ≠ [])
    {fuel : Nat} {e : DirectoryEntry} {count total : Nat} (he : Sound e)
    (hf : iso9660MaxExtentCount ≤ fuel + count) (hcount : count < iso9660MaxExtentCount) :
    (countExtents baseName fuel e count total).Ensures True fun result =>
      ∃ rest, Rest first e count rest result total := by
  induction fuel generalizing e count total with
  | zero => omega
  | succ fuel ih =>
    unfold countExtents
    split
    · next hflag =>
      refine ⟨[], Rest.none hcount ?_⟩
      rintro n ⟨h, -, -⟩
      rw [h] at hflag
      cases hflag
    next hflag =>
    have hflag : e.isMultiExtent := by simpa using hflag
    split
    · next hnext =>
      refine ⟨[], Rest.none hcount ?_⟩
      rintro n ⟨-, hn, -⟩
      rw [he.nextEntry_iff.mpr hn] at hnext
      cases hnext
    next next hnext =>
    have hfollows := he.nextEntry_iff.mp hnext
    apply (loadName_ensures nameLimit next).bind
    rintro ⟨nextName, nextRr⟩ hnextName
    dsimp only
    split
    · next hdiff =>
      -- the record that follows has another name, and there is no other
      refine ⟨[], Rest.none hcount ?_⟩
      rintro n ⟨-, hn, x, y, hx, hy, hxy⟩
      cases Option.some.inj (hnext.symm.trans (he.nextEntry_iff.mpr hn))
      cases hbase.symm.trans hx
      cases hnextName.symm.trans hy
      rcases hdiff with hdiff | hdiff
      · exact hname hdiff
      · unfold strcmpEq at hdiff
        rw [hxy] at hdiff
        simp at hdiff
    next hsame =>
    have hsame : strcmpEq baseName nextName = true := by
      by_contra hne
      exact hsame (Or.inr (by simpa using hne))
    have hcont : Continues first e next :=
      ⟨hflag, hfollows, _, _, hbase, hnextName, of_decide_eq_true hsame⟩
    split
    · next hmax =>
      refine ⟨[next], Rest.cons hnext hcont ?_⟩
      have heq : count + 1 = iso9660MaxExtentCount := by omega
      exact ⟨rfl, rfl, rfl, .singleton next, Nat.le_of_eq heq, Or.inl heq⟩
    · next hmax =>
      apply (ih (he.next hfollows) (by omega) (by omega)).imp id
      rintro result ⟨rest, h⟩
      exact ⟨next :: rest, h.cons hnext hcont⟩

theorem collectExtents_ensures {entry : DirectoryEntry} (h : Reached entry) :
    (collectExtents entry).Ensures True fun collected =>
      ∃ run, IsRun entry run ∧ collected.1 = run.map extentOf ∧
        collected.2 = (run.map DirectoryEntry.extentSize).sum := by
  unfold collectExtents
  apply (loadName_ensures nameLimit entry).bind
  rintro ⟨baseName, rr⟩ hbase
  apply (countExtents_ensures hbase (h.named _ hbase) ⟨h.whole, h.sound⟩ (Nat.le_add_right _ _)
    (by decide)).bind
  rintro ⟨extentCount, totalSize⟩ ⟨rest, hrest⟩
  have hcounted : extentCount = 1 + rest.length := hrest.counted
  refine ⟨entry :: rest, ⟨rfl, hrest.chain, ?_, ?_⟩, ?_, ?_⟩
  · rw [List.length_cons, Nat.add_comm, ← hcounted]
    exact hrest.bounded
  · rw [List.length_cons, Nat.add_comm, ← hcounted]
    exact hrest.maximal
  · show fillExtents extentCount entry = _
    rw [hcounted, Nat.add_comm]
    exact hrest.filled
  · rw [List.map_cons, List.sum_cons]
    exact hrest.summed

/-! ## Reading -/

variable (vol : Volume)

def extentBytes (x : Extent) : List UInt8 := vol.bytes (x.lba * iso9660SectorSize) x.size

/-- The extents put together. -/
def contents (extents : List Extent) : List UInt8 := extents.flatMap (extentBytes vol)

def totalSize (extents : List Extent) : Nat := (extents.map Extent.size).sum

/-- Those of the extents that have bytes of the range lie inside the volume; the first one starts at
`start`. -/
def Readable (extents : List Extent) (start loc count : Nat) : Prop :=
  ∀ before x after, extents = before ++ x :: after → start + totalSize before < loc + count →
    loc < start + totalSize before + x.size → vol.Inside (x.lba * iso9660SectorSize) x.size

theorem length_contents (extents : List Extent) : (contents vol extents).length = totalSize extents := by
  unfold contents totalSize
  rw [List.length_flatMap]
  congr 1
  apply List.map_congr_left
  intro x _
  exact vol.length_bytes _ _

variable {vol}

theorem readExtents_zero (extents : List Extent) (start loc : Nat) :
    readExtents vol extents start loc 0 = .ok ([], 0) := by
  cases extents with
  | nil => rfl
  | cons x extents => rfl

theorem Readable.tail {x : Extent} {extents : List Extent} {start loc count : Nat}
    (h : Readable vol (x :: extents) start loc count) {loc' count' : Nat} (hloc : loc ≤ loc')
    (hend : loc' + count' = loc + count) : Readable vol extents (start + x.size) loc' count' := by
  intro before y after heq hstart hstop
  have hsum : totalSize (x :: before) = x.size + totalSize before := by
    unfold totalSize
    rw [List.map_cons, List.sum_cons]
  apply h (x :: before) y after
  · rw [heq, List.cons_append]
  · omega
  · omega

theorem readExtents_eq {extents : List Extent} {start loc count : Nat} (hstart : start ≤ loc)
    (hfit : loc + count ≤ start + totalSize extents) (hread : Readable vol extents start loc count) :
    readExtents vol extents start loc count =
      .ok (((contents vol extents).drop (loc - start)).take count, 0) := by
  induction extents generalizing start loc count with
  | nil =>
    have h0 : count = 0 := by
      have : totalSize [] = 0 := rfl
      omega
    rw [h0, readExtents_zero]
    rfl
  | cons x extents ih =>
    have hsum : totalSize (x :: extents) = x.size + totalSize extents := by
      unfold totalSize
      rw [List.map_cons, List.sum_cons]
    have hcontents : contents vol (x :: extents) = extentBytes vol x ++ contents vol extents := rfl
    have hlength : (extentBytes vol x).length = x.size := vol.length_bytes _ _
    by_cases hc : count = 0
    · rw [hc, readExtents_zero, List.take_zero]
    unfold readExtents
    rw [if_neg hc]
    dsimp only
    by_cases hhere : loc < start + x.size
    · rw [if_pos hhere]
      -- the part of the extent that is wanted starts at `off`
      obtain ⟨off, rfl⟩ := Nat.exists_eq_add_of_le hstart
      have hoff : (if start + off > start then start + off - start else 0) = off := by
        split <;> omega
      rw [hoff, Nat.add_sub_cancel_left]
      have hinside : vol.Inside (x.lba * iso9660SectorSize) x.size := by
        apply hread [] x extents rfl
        · show start + 0 < _
          omega
        · show _ < start + 0 + x.size
          omega
      have hpart {n : Nat} (hn : off + n ≤ x.size) (h0 : 0 < n) :
          vol.volumeRead (x.lba * iso9660SectorSize + off) n =
            some (((extentBytes vol x).drop off).take n) := by
        unfold extentBytes
        rw [vol.bytes_drop_take hn]
        apply Fs.Volume.volumeRead_inside _ h0
        obtain ⟨size, hs, hle⟩ := hinside
        exact ⟨size, hs, by omega⟩
      rw [hcontents]
      by_cases hall : count < x.size - off
      · rw [if_pos hall, hpart (by omega) (by omega)]
        dsimp only
        rw [Nat.sub_self, readExtents_zero, Lib.ok_bind]
        dsimp only
        rw [List.append_nil, List.drop_append_of_le_length (by omega),
          List.take_append_of_le_length (by rw [List.length_drop]; omega)]
      · rw [if_neg hall, hpart (by omega) (by omega)]
        dsimp only
        have hnext := @ih (start + x.size) (start + off + (x.size - off)) (count - (x.size - off)) (by omega)
          (by omega) (hread.tail (by omega) (by omega))
        rw [hnext, Lib.ok_bind]
        dsimp only
        have hdone : start + off + (x.size - off) - (start + x.size) = 0 := by omega
        rw [hdone, List.drop_zero, List.drop_append_of_le_length (by omega), List.take_append,
          List.length_drop, hlength]
        congr 3
        rw [List.take_of_length_le (by rw [List.length_drop]; omega),
          List.take_of_length_le (by rw [List.length_drop]; omega)]
    · have hskip : (extentBytes vol x).drop (loc - start) = [] := List.drop_of_length_le (by omega)
      rw [if_neg hhere, ih (by omega) (by omega) (hread.tail (Nat.le_refl _) rfl), hcontents,
        List.drop_append, hskip, List.nil_append, hlength]
      have hoff : loc - (start + x.size) = loc - start - x.size := by omega
      rw [hoff]

/-! ## Opening -/

variable {V : Type} [DecidableEq V] {vols : V → Volume} {caseInsensitiveFopen : Bool}

/-- The contexts there can be: none, then those some call left. -/
inductive Opened (vols : V → Volume) : Contexts V → Prop
  | none : Opened vols []
  | call {contexts contexts' : Contexts V} {caseInsensitiveFopen : Bool} {vol : V} {path : CString}
      {handle : Option (FileHandle V)} (before : Opened vols contexts)
      (h : openFile caseInsensitiveFopen vols contexts vol path = .ok (handle, contexts')) :
      Opened vols contexts'

/-- Each context is what its volume has. -/
def Cached (vols : V → Volume) (contexts : Contexts V) : Prop :=
  ∀ vol root, (vol, root) ∈ contexts → cacheRoot (vols vol) = some root

theorem getContext_cached {contexts : Contexts V} (h : Cached vols contexts) (vol : V) :
    (getContext vols contexts vol).1 = cacheRoot (vols vol) ∧
      Cached vols (getContext vols contexts vol).2 := by
  unfold getContext
  split
  · next root hlookup =>
    refine ⟨(h vol root ?_).symm, h⟩
    obtain ⟨a, b, heq, -⟩ := List.lookup_eq_some_iff.mp hlookup
    rw [heq]
    simp
  · split
    · next hroot => exact ⟨hroot.symm, h⟩
    · next root hroot =>
      refine ⟨hroot.symm, ?_⟩
      intro vol' root' hmem
      rcases List.mem_cons.mp hmem with heq | hmem
      · cases heq
        exact hroot
      · exact h vol' root' hmem

theorem length_of_cacheRoot {vol : Volume} {root : List UInt8} (h : cacheRoot vol = some root) :
    root.length ≤ iso9660MaxDirSize := by
  unfold cacheRoot at h
  obtain ⟨pv, -, h⟩ := Option.bind_eq_some_iff.mp h
  dsimp only at h
  split at h
  · cases h
  · next hsize =>
    rw [vol.length_of_volumeRead h]
    exact dirSizeValid_le (by simpa using hsize)

/-- The handle of the file whose first record is `entry`. -/
structure HandleOf (vol : V) (entry : DirectoryEntry) (run : List DirectoryEntry) (handle : FileHandle V) :
    Prop where
  on : handle.vol = vol
  records : IsRun entry run
  extents : handle.extents = run.map extentOf
  size : handle.size = (run.map DirectoryEntry.extentSize).sum

variable (caseInsensitiveFopen) in
theorem openFile_ensures {contexts : Contexts V} (h : Cached vols contexts) (vol : V) (path : CString) :
    (openFile caseInsensitiveFopen vols contexts vol path).Ensures True fun r =>
      Cached vols r.2 ∧ ∀ handle, r.1 = some handle → ∃ root entry run, cacheRoot (vols vol) = some root ∧
        walk caseInsensitiveFopen (vols vol) ((cString path).length + 1) root (cString path) =
          .ok (some entry) ∧ HandleOf vol entry run handle := by
  have hnone {contexts : Contexts V} (hc : Cached vols contexts) :
      Exec.Ensures True (fun r : Option (FileHandle V) × Contexts V => Cached vols r.2 ∧
        ∀ handle, r.1 = some handle → ∃ root entry run, cacheRoot (vols vol) = some root ∧
        walk caseInsensitiveFopen (vols vol) ((cString path).length + 1) root (cString path) =
          .ok (some entry) ∧ HandleOf vol entry run handle) (.ok (none, contexts)) := by
    refine ⟨hc, ?_⟩
    intro handle heq
    cases heq
  unfold openFile
  split
  · exact hnone h
  split
  · exact hnone h
  obtain ⟨hroot, hcached⟩ := getContext_cached h vol
  split
  · next contexts' hget =>
    rw [hget] at hcached
    exact hnone hcached
  · next root contexts' hget =>
    rw [hget] at hroot hcached
    dsimp only
    have hwalk := walk_ensures caseInsensitiveFopen (vols vol) (Nat.lt_succ_self (cString path).length)
      (length_of_cacheRoot hroot.symm) cString_ne_zero
    cases hfound : walk caseInsensitiveFopen (vols vol) ((cString path).length + 1) root (cString path) with
    | error e =>
      rw [hfound] at hwalk
      cases e with
      | panic msg => trivial
      | outOfFuel => exact hwalk
    | ok r =>
      rw [hfound] at hwalk
      rw [Lib.ok_bind]
      cases r with
      | none => exact hnone hcached
      | some entry =>
        apply (collectExtents_ensures (hwalk entry rfl)).bind
        rintro ⟨extents, size⟩ ⟨run, hrun, hextents, hsize⟩
        refine ⟨hcached, ?_⟩
        intro handle heq
        cases heq
        exact ⟨root, entry, run, hroot.symm, hfound, rfl, hrun, hextents, hsize⟩

theorem Opened.cached {contexts : Contexts V} (h : Opened vols contexts) : Cached vols contexts := by
  induction h with
  | none =>
    intro vol root hmem
    cases hmem
  | call _ h ih => exact ((openFile_ensures _ ih _ _).of_ok h).1

/-- A call ends, and a handle it gives is the record the path names with what continues it; inside the
file a read gives what the extents have. -/
theorem openFile_reads_extents {contexts : Contexts V} (h : Opened vols contexts) (caseInsensitiveFopen : Bool)
    (vol : V) (path : CString) :
    openFile caseInsensitiveFopen vols contexts vol path ≠ .error .outOfFuel ∧
    ∀ handle contexts', openFile caseInsensitiveFopen vols contexts vol path = .ok (some handle, contexts') →
      (∃ root entry run, cacheRoot (vols vol) = some root ∧
        walk caseInsensitiveFopen (vols vol) ((cString path).length + 1) root (cString path) =
          .ok (some entry) ∧ HandleOf vol entry run handle) ∧
      ∀ loc count, loc + count ≤ handle.size → Readable (vols vol) handle.extents 0 loc count →
        read vols handle loc count =
          .ok (((contents (vols vol) handle.extents).drop loc).take count, count) := by
  have hopen := openFile_ensures caseInsensitiveFopen h.cached vol path
  refine ⟨?_, ?_⟩
  · intro hfuel
    rw [hfuel] at hopen
    exact hopen
  intro handle contexts' hok
  obtain ⟨root, entry, run, hroot, hwalk, hhandle⟩ := (hopen.of_ok hok).2 handle rfl
  refine ⟨⟨root, entry, run, hroot, hwalk, hhandle⟩, ?_⟩
  intro loc count hfit hread
  have hsize : handle.size = totalSize handle.extents := by
    rw [hhandle.size, hhandle.extents]
    unfold totalSize
    rw [List.map_map]
    rfl
  unfold read
  rw [hhandle.on, readExtents_eq (Nat.zero_le loc) (by omega) hread, Lib.ok_bind]
  rfl

/-- Sixteen sectors of no use, then the descriptor, the root directory with its two records of `A`, and
their data. -/
def twoRecords : Volume where
  sectCount := 80
  byteAt a :=
    (([(0x8000, 1), (0x8001, 67), (0x8002, 68), (0x8003, 48), (0x8004, 48), (0x8005, 49), (0x8006, 1),
      (0x809e, 17), (0x80a7, 8),
      (0x8800, 34), (0x8802, 18), (0x880a, 3), (0x8819, 0x80), (0x8820, 1), (0x8821, 65),
      (0x8822, 34), (0x8824, 19), (0x882c, 2), (0x8842, 1), (0x8843, 65),
      (0x9000, 1), (0x9001, 2), (0x9002, 3), (0x9800, 4), (0x9801, 5)] : List (Nat × UInt8)).lookup a).getD 0
  medium := 0
  past _ _ := none

theorem openFile_reads_twoRecords :
    ∃ contexts, openFile false (fun _ : Unit => twoRecords) [] () [65] =
        .ok (some ⟨(), [⟨18, 3⟩, ⟨19, 2⟩], 5⟩, contexts) ∧
      read (fun _ => twoRecords) ⟨(), [⟨18, 3⟩, ⟨19, 2⟩], 5⟩ 1 3 = .ok ([2, 3, 4], 3) := by
  have hopen : (openFile false (fun _ : Unit => twoRecords) [] () [65]).map Prod.fst =
      .ok (some ⟨(), [⟨18, 3⟩, ⟨19, 2⟩], 5⟩) := by
    decide +kernel
  cases hok : openFile false (fun _ : Unit => twoRecords) [] () [65] with
  | error e =>
    rw [hok] at hopen
    cases hopen
  | ok r =>
    obtain ⟨handle, contexts⟩ := r
    rw [hok] at hopen
    cases hopen
    refine ⟨contexts, rfl, ?_⟩
    have hreads := ((openFile_reads_extents .none false () [65]).2 _ _ hok).2 1 3 (by decide)
    rw [hreads]
    · decide
    · intro before x after heq _ _
      have hmem : x ∈ [⟨18, 3⟩, ⟨19, 2⟩] := by
        have : x ∈ before ++ x :: after := by simp
        rwa [← heq] at this
      rcases List.mem_cons.mp hmem with rfl | hmem
      · exact ⟨40960, by decide, by decide⟩
      · cases List.mem_singleton.mp hmem
        exact ⟨40960, by decide, by decide⟩

end Limine.Iso9660
