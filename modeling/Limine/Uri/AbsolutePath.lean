import Limine.Lib.ByteMemory
import Limine.Menu.Path
import Limine.Lib.PathNames

/-!
# `get_absolute_path`

The path is copied behind the directory into the buffer, and `..` walks back over what is there.  An
access outside the buffer is an outcome of its own.
-/

namespace Limine.Uri

open Lib Lib.PathNames Limine.Menu

def dot : UInt8 := 46

/-- An access to the byte of this number, which is not in the buffer. -/
structure OutsideBuffer where
  index : Nat
deriving DecidableEq

/-- The result, `false` or `true`, and the buffer. -/
abbrev Written := Except OutsideBuffer (Bool × ByteMemory)

section
variable (size : Nat)

def loadAt (buf : ByteMemory) (i : Nat) : Except OutsideBuffer UInt8 :=
  if i < size then .ok (buf i) else .error ⟨i⟩

def storeAt (buf : ByteMemory) (i : Nat) (c : UInt8) : Except OutsideBuffer ByteMemory :=
  if i < size then .ok (Function.update buf i c) else .error ⟨i⟩

/-- `memcpy(path_ptr, s, strlen(s) + 1)` -/
def copyString (buf : ByteMemory) (s : CString) : Except OutsideBuffer ByteMemory :=
  if s.length < size then .ok (buf.store 0 (s ++ [0])) else .error ⟨size⟩

/-- `while (path_ptr > orig_ptr && *path_ptr != '/') path_ptr--;` -/
def walkBack (buf : ByteMemory) : Nat → Except OutsideBuffer Nat
  | 0 => .ok 0
  | pp + 1 => do
    let c ← loadAt size buf (pp + 1)
    if c = slash then return pp + 1 else walkBack buf pp

/-- Where `path_ptr` is after a `..`. -/
def parentOf (buf : ByteMemory) (pp : Nat) : Except OutsideBuffer Nat := do
  let pp ← walkBack size buf pp
  return if pp = 0 then 1 else pp

/-- What is behind the label `term`. -/
def term (buf : ByteMemory) (pp : Nat) : Written := do
  let pp ← if 0 < pp then do
      let c ← loadAt size buf (pp - 1)
      pure (if c = slash ∧ pp - 1 ≠ 0 then pp - 1 else pp)
    else pure pp
  let buf ← storeAt size buf pp 0
  return (true, buf)

/-- How the code behind the label `first_run` goes on. -/
inductive Next
  /-- around the loop, with `skip` characters of the path passed -/
  | again (skip : Nat) (buf : ByteMemory) (pp : Nat)
  | done (result : Bool × ByteMemory)

def firstRun (path : CString) (buf : ByteMemory) (pp : Nat) : Except OutsideBuffer Next :=
  if path.head? = some slash then return .again 0 buf pp
  else if path = [dot] ∨ path = [dot, slash] then .done <$> term size buf pp
  else if path = [dot, dot] ∨ path = [dot, dot, slash] then do
    let pp ← parentOf size buf pp
    .done <$> term size buf pp
  else if [dot, dot, slash].isPrefixOf path then do
    let pp ← parentOf size buf pp
    let buf ← storeAt size buf pp 0
    return .again 2 buf pp
  else if [dot, slash].isPrefixOf path then return .again 1 buf pp
  else if pp > 0 ∧ pp - 1 ≠ 0 then do
    let c ← loadAt size buf (pp - 1)
    if c ≠ slash then
      if pp ≥ size - 1 then return .done (false, buf)
      else do
        let buf ← storeAt size buf pp slash
        return .again 0 buf (pp + 1)
    else return .again 0 buf pp
  else return .again 0 buf pp

/-- The loop, with the path that is left. -/
def copyFrom (path : CString) (buf : ByteMemory) (pp : Nat) : Written :=
  match path with
  | [] => term size buf pp
  | c :: path =>
    if c = slash then do
      match ← firstRun size path buf pp with
      | .again skip buf pp => copyFrom (path.drop skip) buf pp
      | .done result => return result
    else if pp ≥ size - 1 then return (false, buf)
    else do
      let buf ← storeAt size buf pp c
      copyFrom path buf (pp + 1)
termination_by path.length

/-- `get_absolute_path` on a buffer of `size` bytes.  `goto first_run` is the loop on a path with a
`/` before it. -/
def getAbsolutePath (buf : ByteMemory) (path pwd : CString) : Written :=
  if size = 0 then return (false, buf)
  else
    match path with
    | [] =>
      if pwd.length ≥ size then return (false, buf)
      else do
        let buf ← copyString size buf pwd
        return (true, buf)
    | c :: rest =>
      if c ≠ slash then
        if pwd.length ≥ size then return (false, buf)
        else do
          let buf ← copyString size buf pwd
          copyFrom size (slash :: path) buf pwd.length
      else do
        let buf ← storeAt size buf 0 slash
        copyFrom size (slash :: rest) buf 1

end

/-!
## `get_absolute_path` resolves

Between two parts of the path the buffer holds the directory reached so far in normal form, and within
a part it holds the directory and what has been copied of the name (`Holds`).  No `/` stands at
`path_ptr` or behind it, so that walking back finds the last one that was written.
-/

/-- The buffer holds `cur` up to `path_ptr`. -/
structure Holds (size : Nat) (cur : CString) (buf : ByteMemory) (pp : Nat) : Prop where
  length : pp = cur.length
  bytes : buf.bytes 0 pp = cur
  clear : ∀ i, pp ≤ i → i < size → buf i ≠ slash
  fits : pp < size

/-- The string that the buffer holds. -/
def Spells (buf : ByteMemory) (s : CString) : Prop := buf.bytes 0 s.length = s ∧ buf s.length = 0

/-- A run that ends with a result, which is `true` where `fits` says so and spells the directory. -/
def Resolves (names : List CString) (fits : Prop) (run : Written) : Prop :=
  ∃ ok buf, run = .ok (ok, buf) ∧ (ok = true → Spells buf (render slash names)) ∧ (fits → ok = true)

theorem Resolves.weaken {names : List CString} {fits fits' : Prop} {run : Written}
    (h : Resolves names fits run) (himp : fits' → fits) : Resolves names fits' run := by
  obtain ⟨ok, buf, hrun, hspells, hfits⟩ := h
  exact ⟨ok, buf, hrun, hspells, fun h => hfits (himp h)⟩

/-! ## One access -/

variable {size : Nat} {buf : ByteMemory} {pp : Nat} {cur : CString}

theorem bytes_update {n i : Nat} (h : n ≤ i) (c : UInt8) :
    ByteMemory.bytes (Function.update buf i c) 0 n = buf.bytes 0 n := by
  apply ByteMemory.bytes_congr
  intro k hk
  exact Function.update_of_ne (by omega : 0 + k ≠ i) c buf

theorem loadAt_eq {i : Nat} (h : i < size) : loadAt size buf i = .ok (buf i) := if_pos h

theorem storeAt_eq {i : Nat} (h : i < size) (c : UInt8) :
    storeAt size buf i c = .ok (Function.update buf i c) := if_pos h

theorem byte_of_bytes {xs : CString} {c : UInt8} {n : Nat} (h : buf.bytes 0 n = xs ++ [c]) :
    buf xs.length = c := by
  obtain ⟨-, -, hlast⟩ := (ByteMemory.bytes_eq_append_iff buf).mp h
  rw [Nat.zero_add] at hlast
  exact (List.cons.inj hlast).1

theorem Holds.push (h : Holds size cur buf pp) (hroom : pp + 1 < size) (c : UInt8) :
    Holds size (cur ++ [c]) (Function.update buf pp c) (pp + 1) where
  length := by rw [List.length_append, ← h.length]; rfl
  bytes := by
    rw [ByteMemory.bytes_append, bytes_update (Nat.le_refl pp), h.bytes]
    show cur ++ [Function.update buf pp c (0 + pp + 0)] = _
    rw [Nat.zero_add, Nat.add_zero, Function.update_self]
  clear := by
    intro i hi hsize
    rw [Function.update_of_ne (by omega)]
    exact h.clear i (by omega) hsize
  fits := hroom

/-! ## The end -/

theorem term_keep {xs : CString} {c : UInt8} (hbytes : buf.bytes 0 pp = xs ++ [c]) (hpp : pp < size)
    (h : c ≠ slash ∨ xs = []) : ∃ buf', term size buf pp = .ok (true, buf') ∧ Spells buf' (xs ++ [c]) := by
  have hlen : pp = xs.length + 1 := by
    have := congrArg List.length hbytes
    simpa using this
  have hlast : buf (pp - 1) = c := by
    rw [hlen]
    exact byte_of_bytes hbytes
  have hkeep : ¬ (buf (pp - 1) = slash ∧ pp - 1 ≠ 0) := by
    rintro ⟨hslash, hne⟩
    rcases h with hc | hxs
    · exact hc (hlast.symm.trans hslash)
    · rw [hxs] at hlen
      exact hne (by rw [hlen]; rfl)
  refine ⟨Function.update buf pp 0, ?_, ?_⟩
  · unfold term
    rw [if_pos (by omega), loadAt_eq (by omega)]
    show storeAt size buf (if buf (pp - 1) = slash ∧ pp - 1 ≠ 0 then pp - 1 else pp) 0 >>= _ = _
    rw [if_neg hkeep, storeAt_eq hpp]
    rfl
  · have hlength : (xs ++ [c]).length = pp := by rw [hlen]; simp
    unfold Spells
    rw [hlength, bytes_update (Nat.le_refl pp), hbytes, Function.update_self]
    exact ⟨rfl, rfl⟩

theorem term_strip {xs : CString} (hbytes : buf.bytes 0 pp = xs ++ [slash]) (hpp : pp < size)
    (h : xs ≠ []) : ∃ buf', term size buf pp = .ok (true, buf') ∧ Spells buf' xs := by
  have hlen : pp = xs.length + 1 := by
    have := congrArg List.length hbytes
    simpa using this
  have hpos : 0 < xs.length := List.length_pos_of_ne_nil h
  have hlast : buf (pp - 1) = slash := by
    rw [hlen]
    exact byte_of_bytes hbytes
  have hxs : buf.bytes 0 xs.length = xs := ((ByteMemory.bytes_eq_append_iff buf).mp hbytes).2.1
  refine ⟨Function.update buf (pp - 1) 0, ?_, ?_⟩
  · unfold term
    rw [if_pos (by omega), loadAt_eq (by omega)]
    show storeAt size buf (if buf (pp - 1) = slash ∧ pp - 1 ≠ 0 then pp - 1 else pp) 0 >>= _ = _
    rw [if_pos ⟨hlast, by omega⟩, storeAt_eq (by omega)]
    rfl
  · have hlength : pp - 1 = xs.length := by omega
    unfold Spells
    rw [hlength, bytes_update (Nat.le_refl xs.length), hxs, Function.update_self]
    exact ⟨rfl, rfl⟩

/-! ## Directories -/

abbrev Names (names : List CString) : Prop := ∀ name ∈ names, IsName slash dot name

theorem Names.dropLast {names : List CString} (h : Names names) : Names names.dropLast :=
  fun name hname => h name ((List.dropLast_sublist names).mem hname)

/-- The last character of a directory is one of a name, but for the root. -/
theorem render_last {names : List CString} (h : Names names) :
    ∃ xs c, render slash names = xs ++ [c] ∧ (c ≠ slash ∧ xs ≠ [] ∧ names ≠ [] ∨ xs = [] ∧ names = []) := by
  rcases List.eq_nil_or_concat names with rfl | ⟨init, last, rfl⟩
  · exact ⟨[], slash, rfl, Or.inr ⟨rfl, rfl⟩⟩
  · have hlast := h last (by simp)
    rcases List.eq_nil_or_concat last with rfl | ⟨ys, c, rfl⟩
    · exact absurd rfl hlast.ne_nil
    · refine ⟨joined slash init ++ slash :: ys, c, ?_, Or.inl ⟨?_, by simp, by simp⟩⟩
      · rw [List.concat_eq_append, render_of_ne_nil (by simp), joined_append]
        simp [joined]
      · rintro rfl
        exact hlast.sep_not_mem (by simp)

theorem Holds.term {names : List CString} (hnames : Names names)
    (hbytes : buf.bytes 0 pp = render slash names) (hpp : pp < size) (fits : Prop) :
    Resolves names fits (term size buf pp) := by
  obtain ⟨xs, c, hcur, hc⟩ := render_last hnames
  rw [hcur] at hbytes
  have hkeep : c ≠ slash ∨ xs = [] := by
    rcases hc with ⟨hc, -, -⟩ | ⟨hxs, -⟩
    · exact Or.inl hc
    · exact Or.inr hxs
  obtain ⟨buf', hterm, hspells⟩ := term_keep hbytes hpp hkeep
  exact ⟨true, buf', hterm, fun _ => hcur ▸ hspells, fun _ => rfl⟩

theorem walkBack_eq {q : Nat} (hq : q = 0 ∨ buf q = slash) (n : Nat) :
    (∀ i, q < i → i ≤ q + n → buf i ≠ slash) → q + n < size → walkBack size buf (q + n) = .ok q := by
  induction n with
  | zero =>
    intro _ hsize
    rw [Nat.add_zero]
    cases q with
    | zero => rfl
    | succ q =>
      have hslash := hq.resolve_left (Nat.succ_ne_zero q)
      unfold walkBack
      rw [loadAt_eq hsize]
      show (if buf (q + 1) = slash then _ else _) = _
      rw [if_pos hslash]
      rfl
  | succ n ih =>
    intro hclear hsize
    have hne := hclear (q + n + 1) (by omega) (by omega)
    rw [← Nat.add_assoc]
    unfold walkBack
    rw [loadAt_eq (by omega)]
    show (if buf (q + n + 1) = slash then _ else _) = _
    rw [if_neg hne]
    exact ih (fun i h1 h2 => hclear i h1 (by omega)) (by omega)

/-- The parent is where `..` leads, and behind its end there is no `/`. -/
theorem parentOf_eq (hsize : 2 ≤ size) {names : List CString} (hnames : Names names)
    (h : Holds size (render slash names) buf pp) :
    ∃ q, parentOf size buf pp = .ok q ∧ q ≤ pp ∧ q = (render slash names.dropLast).length ∧
      buf.bytes 0 q = render slash names.dropLast ∧ ∀ i, q < i → i < size → buf i ≠ slash := by
  rcases List.eq_nil_or_concat names with rfl | ⟨init, last, rfl⟩
  · -- at the root `path_ptr` comes back to where it was
    have hlen : pp = 1 := h.length
    subst hlen
    have hwalk : walkBack size buf (0 + 1) = .ok 0 :=
      walkBack_eq (Or.inl rfl) 1 (fun i h1 h2 => h.clear i h1 (by omega)) (by omega)
    refine ⟨1, ?_, Nat.le_refl 1, rfl, h.bytes, fun i h1 h2 => h.clear i (by omega) h2⟩
    unfold parentOf
    rw [show walkBack size buf 1 = _ from hwalk]
    rfl
  · rw [List.concat_eq_append] at h hnames ⊢
    have hlast := hnames last (by simp)
    rw [List.dropLast_concat]
    have hcur : render slash (init ++ [last]) = joined slash init ++ (slash :: last) := by
      rw [render_of_ne_nil (by simp), joined_append]
      simp [joined]
    have hbytes := h.bytes
    have hlen := h.length
    have hfits := h.fits
    rw [hcur, ByteMemory.bytes_eq_append_iff, Nat.zero_add] at hbytes
    rw [hcur, List.length_append, List.length_cons] at hlen
    obtain ⟨-, hinit, hname⟩ := hbytes
    rw [List.length_cons, Nat.add_comm last.length 1, ByteMemory.bytes_append] at hname
    have hslash : buf (joined slash init).length = slash := (List.cons.inj hname).1
    have hclear : ∀ i, (joined slash init).length < i → i < size → buf i ≠ slash := by
      intro i h1 h2
      by_cases hi : i < pp
      · have hmem : buf i ∈ buf.bytes ((joined slash init).length + 1) last.length := by
          refine List.mem_map.mpr ⟨i - ((joined slash init).length + 1), ?_, ?_⟩
          · rw [List.mem_range]
            omega
          · congr 1
            omega
        have hrest : buf.bytes ((joined slash init).length + 1) last.length = last :=
          (List.cons.inj hname).2
        rw [hrest] at hmem
        exact fun heq => hlast.sep_not_mem (heq ▸ hmem)
      · exact h.clear i (by omega) h2
    have hwalk : walkBack size buf pp = .ok (joined slash init).length := by
      rw [hlen]
      exact walkBack_eq (Or.inr hslash) _ (fun i h1 h2 => hclear i h1 (by omega)) (by omega)
    unfold parentOf
    rw [hwalk]
    by_cases hroot : init = []
    · subst hroot
      refine ⟨1, rfl, by omega, rfl, ?_, fun i h1 h2 => hclear i (by show 0 < i; omega) h2⟩
      show [buf 0] = [slash]
      rw [show buf 0 = slash from hslash]
    · have hpos : (joined slash init).length ≠ 0 := by
        cases init with
        | nil => exact absurd rfl hroot
        | cons name init => simp [joined]
      refine ⟨(joined slash init).length, ?_, by omega, ?_, ?_, hclear⟩
      · show Except.ok (if _ then _ else _) = _
        rw [if_neg hpos]
      · rw [render_of_ne_nil hroot]
      · rw [render_of_ne_nil hroot, hinit]

/-! ## The loop -/

/-- The part that has been begun is a name, or nothing is left of it. -/
structure InName (part path : CString) : Prop where
  slash_not_mem : slash ∉ part
  ne_dot : (part ++ path).takeWhile (· ≠ slash) ≠ [dot]
  ne_dots : (part ++ path).takeWhile (· ≠ slash) ≠ [dot, dot]
  ne_nil : part = [] → path.head? ≠ some slash

theorem eq_of_takeWhile {path w : CString} (h : path.takeWhile (· ≠ slash) = w) :
    path = w ∨ w ++ [slash] <+: path := by
  have hsplit := List.takeWhile_append_dropWhile (p := fun c => decide (c ≠ slash)) (l := path)
  rw [h] at hsplit
  cases hrest : path.dropWhile (· ≠ slash) with
  | nil =>
    rw [hrest, List.append_nil] at hsplit
    exact Or.inl hsplit.symm
  | cons c rest =>
    have hc : c = slash := by
      have := List.head?_dropWhile_not (fun c => decide (c ≠ slash)) path
      rw [hrest] at this
      simpa using this
    refine Or.inr ⟨rest, ?_⟩
    rw [hrest, hc] at hsplit
    rw [List.append_assoc]
    exact hsplit

theorem InName.of_not_dots {path : CString} (hslash : ¬ path.head? = some slash)
    (hdot : ¬ (path = [dot] ∨ path = [dot, slash])) (hdots : ¬ (path = [dot, dot] ∨ path = [dot, dot, slash]))
    (hup : ¬ [dot, dot, slash].isPrefixOf path) (hstay : ¬ [dot, slash].isPrefixOf path) :
    InName [] path where
  slash_not_mem := by simp
  ne_dot := by
    intro h
    rcases eq_of_takeWhile h with h | h
    · exact hdot (Or.inl h)
    · exact hstay (List.isPrefixOf_iff_prefix.mpr h)
  ne_dots := by
    intro h
    rcases eq_of_takeWhile h with h | h
    · exact hdots (Or.inl h)
    · exact hup (List.isPrefixOf_iff_prefix.mpr h)
  ne_nil := fun _ => hslash

/-- The loop from a directory on, with the rest of the path. -/
def FromDir (size n : Nat) : Prop := ∀ path : CString, path.length ≤ n →
  ∀ (names : List CString) (buf : ByteMemory) (pp : Nat), Names names →
    Holds size (render slash names) buf pp → (∀ c ∈ path.head?, c = slash) →
    Resolves (walk slash dot names path) (pp + path.length < size) (copyFrom size path buf pp)

/-- The loop within a name. -/
def FromName (size n : Nat) : Prop := ∀ path : CString, path.length ≤ n →
  ∀ (names : List CString) (part : CString) (buf : ByteMemory) (pp : Nat), Names names →
    Holds size (joined slash names ++ slash :: part) buf pp → InName part path →
    Resolves (walk slash dot names (part ++ path)) (pp + path.length < size) (copyFrom size path buf pp)

/-- Where the path goes on behind a `/`, and in which state. -/
theorem firstRun_resolves (hsize : 2 ≤ size) {n : Nat} (hdir : FromDir size n) (hname : FromName size n)
    {path : CString} (hn : path.length ≤ n) {names : List CString} (hnames : Names names)
    (h : Holds size (render slash names) buf pp) :
    Resolves (walk slash dot names path) (pp + path.length + 1 < size) (do
      match ← firstRun size path buf pp with
      | .again skip buf pp => copyFrom size (path.drop skip) buf pp
      | .done result => return result) := by
  unfold firstRun
  by_cases hslash : path.head? = some slash
  · rw [if_pos hslash]
    refine (hdir path hn names buf pp hnames h ?_).weaken (by omega)
    intro c hc
    rw [hslash] at hc
    exact (Option.some.inj hc).symm
  rw [if_neg hslash]
  by_cases hdot : path = [dot] ∨ path = [dot, slash]
  · rw [if_pos hdot]
    have hwalk : walk slash dot names path = names := by
      rcases hdot with rfl | rfl
      · exact walk_part (by decide)
      · exact (walk_part_sep (by decide : slash ∉ [dot]) []).trans (walk_nil _)
    obtain ⟨ok, buf', hterm, hspells, hok⟩ := Holds.term hnames h.bytes h.fits True
    rw [hwalk, hterm]
    exact ⟨ok, buf', rfl, hspells, fun _ => hok trivial⟩
  rw [if_neg hdot]
  by_cases hdots : path = [dot, dot] ∨ path = [dot, dot, slash]
  · rw [if_pos hdots]
    have hwalk : walk slash dot names path = names.dropLast := by
      rcases hdots with rfl | rfl
      · exact walk_part (by decide)
      · exact (walk_part_sep (by decide : slash ∉ [dot, dot]) []).trans (walk_nil _)
    obtain ⟨q, hparent, hle, hlen, hbytes, -⟩ := parentOf_eq hsize hnames h
    obtain ⟨ok, buf', hterm, hspells, hok⟩ := Holds.term (Names.dropLast hnames) hbytes
      (Nat.lt_of_le_of_lt hle h.fits) True
    rw [hwalk, hparent]
    show Resolves _ _ ((Next.done <$> term size buf q) >>= _)
    rw [hterm]
    exact ⟨ok, buf', rfl, hspells, fun _ => hok trivial⟩
  rw [if_neg hdots]
  by_cases hup : [dot, dot, slash].isPrefixOf path
  · rw [if_pos hup]
    obtain ⟨rest, rfl⟩ := List.isPrefixOf_iff_prefix.mp hup
    have hwalk : walk slash dot names ([dot, dot, slash] ++ rest) =
        walk slash dot names.dropLast (slash :: rest) :=
      (walk_part_sep (by decide : slash ∉ [dot, dot]) rest).trans (walk_sep _ _).symm
    obtain ⟨q, hparent, hle, hlen, hbytes, hclear⟩ := parentOf_eq hsize hnames h
    have hq : q < size := Nat.lt_of_le_of_lt hle h.fits
    have hup : Holds size (render slash names.dropLast) (Function.update buf q 0) q := {
      length := hlen
      bytes := by rw [bytes_update (Nat.le_refl q), hbytes]
      clear := by
        intro i h1 h2
        by_cases hi : i = q
        · rw [hi, Function.update_self]
          decide
        · rw [Function.update_of_ne hi]
          exact hclear i (by omega) h2
      fits := hq }
    rw [hwalk, hparent]
    show Resolves _ _ ((storeAt size buf q 0 >>= _) >>= _)
    rw [storeAt_eq hq]
    refine (hdir (slash :: rest) ?_ _ _ q (Names.dropLast hnames) hup ?_).weaken ?_
    · simp at hn ⊢
      omega
    · simp
    · simp
      omega
  rw [if_neg hup]
  by_cases hstay : [dot, slash].isPrefixOf path
  · rw [if_pos hstay]
    obtain ⟨rest, rfl⟩ := List.isPrefixOf_iff_prefix.mp hstay
    have hwalk : walk slash dot names ([dot, slash] ++ rest) = walk slash dot names (slash :: rest) :=
      (walk_part_sep (by decide : slash ∉ [dot]) rest).trans (walk_sep _ _).symm
    rw [hwalk]
    refine (hdir (slash :: rest) ?_ names buf pp hnames h ?_).weaken ?_
    · simp at hn ⊢
      omega
    · simp
    · simp
      omega
  rw [if_neg hstay]
  have hin : InName [] path := InName.of_not_dots hslash hdot hdots hup hstay
  by_cases hroot : names = []
  · subst hroot
    have hpp : pp = 1 := h.length
    rw [if_neg (by omega)]
    refine (hname path hn [] [] buf pp hnames h hin).weaken (by omega)
  · obtain ⟨xs, c, hcur, hc⟩ := render_last hnames
    obtain ⟨hc, hxs, -⟩ := hc.resolve_right fun h => hroot h.2
    have hpos := List.length_pos_of_ne_nil hxs
    have hpp : pp = xs.length + 1 := by rw [h.length, hcur]; simp
    have hlast : buf (pp - 1) = c := by
      rw [hpp]
      exact byte_of_bytes (h.bytes.trans hcur)
    have hfits := h.fits
    rw [if_pos (by omega), loadAt_eq (by omega)]
    show Resolves _ _ ((if buf (pp - 1) ≠ slash then _ else _) >>= _)
    rw [if_pos (hlast ▸ hc)]
    by_cases hfull : pp ≥ size - 1
    · rw [if_pos hfull]
      refine ⟨false, buf, rfl, by simp, fun h => ?_⟩
      omega
    · rw [if_neg hfull, storeAt_eq hfits]
      have hpush := h.push (by omega) slash
      rw [render_of_ne_nil hroot] at hpush
      refine (hname path hn names [] _ (pp + 1) hnames ?_ hin).weaken (by omega)
      exact hpush

theorem render_concat (names : List CString) (part : CString) :
    joined slash names ++ slash :: part = render slash (names ++ [part]) := by
  rw [render_of_ne_nil (by simp), joined_append]
  simp [joined]

/-- Where a name ends it is one that a directory may have. -/
theorem InName.isName {part path : CString} (h : InName part path) (hpart : part ≠ [])
    (hend : ∀ c ∈ path.head?, c = slash) : IsName slash dot part := by
  have htake : (part ++ path).takeWhile (· ≠ slash) = part := by
    rw [List.takeWhile_append_of_pos]
    · cases path with
      | nil => simp
      | cons c path =>
        have hc : c = slash := hend c rfl
        rw [List.takeWhile_cons_of_neg (by simpa using hc), List.append_nil]
    · intro c hc
      rw [decide_eq_true_eq]
      rintro rfl
      exact h.slash_not_mem hc
  exact ⟨hpart, htake ▸ h.ne_dot, htake ▸ h.ne_dots, h.slash_not_mem⟩

theorem Names.concat {names : List CString} {part : CString} (h : Names names)
    (hpart : IsName slash dot part) : Names (names ++ [part]) := by
  intro name hname
  rcases List.mem_append.mp hname with hname | hname
  · exact h name hname
  · rw [List.mem_singleton.mp hname]
    exact hpart

theorem fromDir_zero (size : Nat) : FromDir size 0 := by
  intro path hn names buf pp hnames h hend
  have hpath : path = [] := List.length_eq_zero_iff.mp (Nat.le_zero.mp hn)
  subst hpath
  rw [walk_nil, copyFrom]
  exact Holds.term hnames h.bytes h.fits _

theorem fromDir_succ (hsize : 2 ≤ size) {n : Nat} (hdir : FromDir size n) (hname : FromName size n) :
    FromDir size (n + 1) := by
  intro path hn names buf pp hnames h hend
  cases path with
  | nil =>
    rw [walk_nil, copyFrom]
    exact Holds.term hnames h.bytes h.fits _
  | cons c path =>
    have hc : c = slash := hend c rfl
    subst hc
    rw [walk_sep, copyFrom, if_pos rfl]
    exact firstRun_resolves hsize hdir hname (Nat.le_of_succ_le_succ hn) hnames h

/-- The end of the path within a name. -/
theorem term_of_name {names : List CString} {part : CString} (hnames : Names names)
    (h : Holds size (joined slash names ++ slash :: part) buf pp) (hin : InName part []) (fits : Prop) :
    Resolves (walk slash dot names part) fits (term size buf pp) := by
  by_cases hpart : part = []
  · subst hpart
    rw [walk_nil]
    by_cases hroot : names = []
    · subst hroot
      exact Holds.term hnames h.bytes h.fits fits
    · have hne : joined slash names ≠ [] := by
        cases names with
        | nil => exact absurd rfl hroot
        | cons name names => simp [joined]
      obtain ⟨buf', hterm, hspells⟩ := term_strip h.bytes h.fits hne
      rw [← render_of_ne_nil hroot] at hspells
      exact ⟨true, buf', hterm, fun _ => hspells, fun _ => rfl⟩
  · have hname := hin.isName hpart (by simp)
    rw [walk_part hin.slash_not_mem, step_of_isName hname]
    exact Holds.term (hnames.concat hname) (h.bytes.trans (render_concat names part)) h.fits fits

theorem fromName_of_fromDir {n : Nat} (hdir : FromDir size n) : FromName size n := by
  intro path
  induction path with
  | nil =>
    intro hn names part buf pp hnames h hin
    rw [List.append_nil, copyFrom]
    exact term_of_name hnames h hin _
  | cons c path ih =>
    intro hn names part buf pp hnames h hin
    by_cases hc : c = slash
    · -- the name ends here, and the loop goes on from the directory it names
      subst hc
      have hend : ∀ c ∈ (slash :: path).head?, c = slash := by simp
      have hpart : part ≠ [] := fun hnil => hin.ne_nil hnil rfl
      have hname := hin.isName hpart hend
      rw [walk_part_sep hin.slash_not_mem, step_of_isName hname, ← walk_sep]
      rw [render_concat] at h
      exact hdir (slash :: path) hn _ buf pp (hnames.concat hname) h hend
    · rw [copyFrom, if_neg hc]
      by_cases hfull : pp ≥ size - 1
      · rw [if_pos hfull]
        refine ⟨false, buf, rfl, by simp, fun hfits => ?_⟩
        rw [List.length_cons] at hfits
        omega
      · rw [if_neg hfull, storeAt_eq h.fits]
        have hpush := h.push (by omega) c
        rw [List.append_assoc, List.cons_append] at hpush
        have hin' : InName (part ++ [c]) path := {
          slash_not_mem := by simpa [hin.slash_not_mem] using Ne.symm hc
          ne_dot := by simpa using hin.ne_dot
          ne_dots := by simpa using hin.ne_dots
          ne_nil := by simp }
        have hrest := ih (Nat.le_of_succ_le hn) names (part ++ [c]) _ (pp + 1) hnames hpush hin'
        rw [List.append_assoc] at hrest
        refine hrest.weaken ?_
        rw [List.length_cons]
        omega

theorem copyFrom_resolves (hsize : 2 ≤ size) (n : Nat) : FromDir size n ∧ FromName size n := by
  induction n with
  | zero => exact ⟨fromDir_zero size, fromName_of_fromDir (fromDir_zero size)⟩
  | succ n ih =>
    have hdir := fromDir_succ hsize ih.1 ih.2
    exact ⟨hdir, fromName_of_fromDir hdir⟩

/-! ## The whole -/

theorem copyString_eq {s : CString} (h : s.length < size) :
    copyString size buf s = .ok (buf.store 0 (s ++ [0])) := if_pos h

theorem bytes_store_string (buf : ByteMemory) (s : CString) : (buf.store 0 (s ++ [0])).bytes 0 (s.length + 1) = s ++ [0] := by
  have h := ByteMemory.bytes_store buf 0 0 (s ++ [0])
  rw [Nat.zero_add, Nat.zero_add, List.length_append] at h
  exact h

theorem spells_store (s : CString) : Spells (buf.store 0 (s ++ [0])) s := by
  have h := bytes_store_string buf s
  refine ⟨?_, byte_of_bytes h⟩
  exact ((ByteMemory.bytes_eq_append_iff _).mp h).2.1

theorem holds_copied {names : List CString} (hzero : ∀ i, i < size → buf i = 0)
    (hfits : (render slash names).length < size) :
    Holds size (render slash names) (buf.store 0 (render slash names ++ [0]))
      (render slash names).length where
  length := rfl
  bytes := (spells_store _).1
  clear := by
    intro i h1 h2
    have hi : buf.store 0 (render slash names ++ [0]) i = 0 := by
      by_cases heq : i = (render slash names).length
      · rw [heq]
        exact (spells_store _).2
      · rw [ByteMemory.store_of_not_mem buf (Or.inr (by simp; omega))]
        exact hzero i h2
    rw [hi]
    decide
  fits := hfits

theorem getAbsolutePath_run (hsize : 2 ≤ size) (hzero : ∀ i, i < size → buf i = 0)
    {names : List CString} (hnames : Names names) (path : CString) :
    Resolves (resolve slash dot names path) ((render slash names).length + 1 + path.length + 1 ≤ size)
      (getAbsolutePath size buf path (render slash names)) := by
  have hslash : ∀ rest : CString, ∀ c ∈ (slash :: rest).head?, c = slash := by simp
  unfold getAbsolutePath
  rw [if_neg (by omega)]
  cases path with
  | nil =>
    have hresolve : resolve slash dot names [] = names := (walk_nil names : walk slash dot names [] = names)
    rw [hresolve]
    dsimp only
    by_cases hlong : (render slash names).length ≥ size
    · rw [if_pos hlong]
      refine ⟨false, buf, rfl, by simp, fun hfits => ?_⟩
      omega
    · rw [if_neg hlong, copyString_eq (by omega)]
      exact ⟨true, _, rfl, fun _ => spells_store _, fun _ => rfl⟩
  | cons c rest =>
    dsimp only
    by_cases hc : c ≠ slash
    · have hresolve : resolve slash dot names (c :: rest) = walk slash dot names (slash :: c :: rest) := by
        rw [walk_sep]
        exact if_neg (by simpa using hc)
      rw [if_pos hc, hresolve]
      by_cases hlong : (render slash names).length ≥ size
      · rw [if_pos hlong]
        refine ⟨false, buf, rfl, by simp, fun hfits => ?_⟩
        omega
      · rw [if_neg hlong, copyString_eq (by omega)]
        refine ((copyFrom_resolves hsize _).1 _ (Nat.le_refl _) names _ _ hnames
          (holds_copied hzero (by omega)) (hslash _)).weaken ?_
        simp only [List.length_cons]
        omega
    · have hc : c = slash := not_not.mp hc
      subst hc
      have hresolve : resolve slash dot names (slash :: rest) = walk slash dot [] (slash :: rest) :=
        if_pos rfl
      have hroot : Holds size (render slash []) (Function.update buf 0 slash) 1 := {
        length := rfl
        bytes := by
          show [Function.update buf 0 slash 0] = [slash]
          rw [Function.update_self]
        clear := by
          intro i h1 h2
          rw [Function.update_of_ne (by omega), hzero i h2]
          decide
        fits := by omega }
      have hnone : Names [] := fun name hname => absurd hname List.not_mem_nil
      rw [if_neg (not_not.mpr rfl), storeAt_eq (by omega), hresolve]
      refine ((copyFrom_resolves hsize _).1 _ (Nat.le_refl _) [] _ 1 hnone hroot (hslash _)).weaken ?_
      simp only [List.length_cons]
      omega

/-- `get_absolute_path` resolves a path against a directory in normal form, in the buffer and within
the length of the two, and resolving what it gives once more changes nothing. -/
theorem getAbsolutePath_resolves (buf : ByteMemory) (size : Nat) (names : List CString) (path : CString)
    (hsize : 2 ≤ size) (hzero : ∀ i, i < size → buf i = 0) (hnames : Names names) :
    ∃ ok out, getAbsolutePath size buf path (render slash names) = .ok (ok, out) ∧
      (ok = true → Spells out (render slash (resolve slash dot names path))) ∧
      ((render slash names).length + 1 + path.length + 1 ≤ size → ok = true) ∧
      ∀ (buf' : ByteMemory) (size' : Nat) (names' : List CString),
        2 ≤ size' → (∀ i, i < size' → buf' i = 0) → Names names' →
        (render slash names').length + 1 + (render slash (resolve slash dot names path)).length + 1 ≤
          size' →
        ∃ out', getAbsolutePath size' buf' (render slash (resolve slash dot names path))
            (render slash names') = .ok (true, out') ∧
          Spells out' (render slash (resolve slash dot names path)) := by
  obtain ⟨ok, out, hrun, hspells, hfits⟩ := getAbsolutePath_run hsize hzero hnames path
  refine ⟨ok, out, hrun, hspells, hfits, ?_⟩
  intro buf' size' names' hsize' hzero' hnames' hroom
  obtain ⟨ok', out', hrun', hspells', hfits'⟩ := getAbsolutePath_run hsize' hzero' hnames'
    (render slash (resolve slash dot names path))
  rw [hfits' hroom] at hrun' hspells'
  rw [resolve_render (resolve_names hnames path)] at hspells'
  exact ⟨out', hrun', hspells' rfl⟩

/-- `../c//./d/` in `/a/b` is `/a/c/d`. -/
theorem getAbsolutePath_resolves_sibling : ∃ out,
    getAbsolutePath 32 (fun _ => 0) [46, 46, 47, 99, 47, 47, 46, 47, 100, 47] [47, 97, 47, 98] =
      .ok (true, out) ∧ Spells out [47, 97, 47, 99, 47, 100] := by
  have hnames : Names [[97], [98]] := by
    intro name hname
    rcases List.mem_cons.mp hname with rfl | hname
    · exact ⟨by decide, by decide, by decide, by decide⟩
    · rw [List.mem_singleton.mp hname]
      exact ⟨by decide, by decide, by decide, by decide⟩
  obtain ⟨ok, out, hrun, hspells, hfits, -⟩ := getAbsolutePath_resolves (fun _ => 0) 32 [[97], [98]]
    [46, 46, 47, 99, 47, 47, 46, 47, 100, 47] (by decide) (fun _ _ => rfl) hnames
  rw [hfits (by decide)] at hrun hspells
  exact ⟨out, hrun, hspells rfl⟩

end Limine.Uri
