import Limine.Machine
import Limine.Menu.Path
import Limine.Lib.Bytes
import Mathlib.Data.List.Infix

/-!
# The parts of a URI

`uri_resolve` splits `resource(root):/path#hash`.
-/

namespace Limine.Uri

open Lib Limine.Menu

structure UriParts where
  resource : CString
  root : CString
  path : CString
  hash : Option CString
deriving DecidableEq, Repr

/-- `URI_BUF_SIZE`. -/
def uriBufSize : Nat := 4096

/-- The loop for the resource: what is before the first `(`, and what follows it. -/
def splitResource : CString → Option (CString × CString)
  | [] => none
  | c :: uri => if c = 40 then some ([], uri) else (splitResource uri).map fun r => (c :: r.1, r.2)

/-- The loop for the root: what is before the first `):/`, and what follows it. -/
def splitRoot : CString → Option (CString × CString)
  | x :: y :: z :: uri =>
    if x = 41 ∧ y = 58 ∧ z = 47 then some ([], uri)
    else (splitRoot (y :: z :: uri)).map fun r => (x :: r.1, r.2)
  | _ => none

/-- The loop for the hash: what is before the last `#`, and what follows it. -/
def splitHash : CString → Option (CString × CString)
  | [] => none
  | c :: uri =>
    match splitHash uri with
    | some r => some (c :: r.1, r.2)
    | none => if c = hash then some ([], uri) else none

def isHexDigit (c : UInt8) : Bool :=
  (48 ≤ c && c ≤ 57) || (97 ≤ c && c ≤ 102) || (65 ≤ c && c ≤ 70)

/-- The number of the first character that is no digit of a hash. -/
def firstInvalid (digits : CString) : Option Nat := digits.findIdx? fun c => !isHexDigit c

/-- `uri_resolve`; `none` is `false`. -/
def uriResolve (uri : CString) : Exec (Option UriParts) :=
  if uriBufSize < uri.length + 1 then .error (.panic "uri_resolve: URI too long (max 4095)")
  else
    match splitResource uri with
    | none => .ok none
    | some (resource, uri) =>
      match splitRoot uri with
      | none => .ok none
      | some (root, uri) =>
        if uri = [] then .ok none
        else
          match splitHash uri with
          | none => .ok (some ⟨resource, root, uri, none⟩)
          | some (path, digits) =>
            if digits.length ≠ 128 then
              .error (.panic "Blake2b hash must be 128 characters long")
            else
              match firstInvalid digits with
              | some j =>
                .error (.panic ("Blake2b hash contains invalid character at position " ++ toString j))
              | none => .ok (some ⟨resource, root, path, some digits⟩)

/-- The digest a hash writes down, two digits a byte. -/
def hashBytes (digits : CString) : List UInt8 :=
  let digit i := (digits[i]?.bind digitToInt).getD 0
  (List.range 64).map fun i => UInt8.ofNat (digit (i * 2) <<< 4 ||| digit (i * 2 + 1))

/-- `gz_compressed`. -/
def UriParts.gzCompressed (parts : UriParts) : Bool := parts.resource.head? = some 36

/-- Where a resource is looked for. -/
inductive Resource
  | hdd
  | odd
  | boot
  | guid
  | fslabel
  | tftp
deriving DecidableEq, Repr

/-- The bytes of a word. -/
def word (s : String) : CString := s.toList.map fun c => UInt8.ofNat c.toNat

/-- The resource after a `$`, if it is one. -/
def UriParts.source (parts : UriParts) : Option Resource :=
  let resource := if parts.gzCompressed then parts.resource.tail else parts.resource
  if resource = word "hdd" then some .hdd
  else if resource = word "odd" then some .odd
  else if resource = word "boot" then some .boot
  else if resource = word "guid" then some .guid
  else if resource = word "uuid" then some .guid
  else if resource = word "fslabel" then some .fslabel
  else if resource = word "tftp" then some .tftp
  else none

/-!
## The grammar of a URI

Which strings `uri_resolve` takes apart, and that what it returns are the parts the string was put
together from.
-/

/-- `):/` -/
def rootEnd : CString := [41, 58, 47]

/-- `sep` does not stand before the place where `root` ends. -/
def FirstAt (sep root text : CString) : Prop :=
  ∀ i, i < root.length → ¬ sep <+: (root ++ sep ++ text).drop i

def hexDigits : CString := word "0123456789abcdefABCDEF"

/-- A hash as the text of a URI may have it. -/
def IsHash (digits : CString) : Prop := digits.length = 128 ∧ ∀ c ∈ digits, c ∈ hexDigits

/-- What follows the root: the path, and the hash if there is one. -/
def UriParts.text (parts : UriParts) : CString :=
  match parts.hash with
  | none => parts.path
  | some digits => parts.path ++ Menu.hash :: digits

/-- `resource(root):/path` or `resource(root):/path#hash` -/
def UriParts.format (parts : UriParts) : CString :=
  parts.resource ++ 40 :: (parts.root ++ rootEnd ++ parts.text)

structure UriParts.WellFormed (parts : UriParts) : Prop where
  resource : 40 ∉ parts.resource
  root : FirstAt rootEnd parts.root parts.text
  text : parts.text ≠ []
  path : parts.hash = none → Menu.hash ∉ parts.path
  digits : ∀ digits, parts.hash = some digits → IsHash digits

/-! ## The three searches -/

theorem splitResource_append {resource : CString} (h : 40 ∉ resource) (rest : CString) :
    splitResource (resource ++ 40 :: rest) = some (resource, rest) := by
  induction resource with
  | nil => rfl
  | cons c resource ih =>
    rw [List.mem_cons, not_or] at h
    rw [List.cons_append, splitResource, if_neg (Ne.symm h.1), ih h.2]
    rfl

theorem of_splitResource {uri resource rest : CString}
    (h : splitResource uri = some (resource, rest)) : uri = resource ++ 40 :: rest ∧ 40 ∉ resource := by
  induction uri generalizing resource with
  | nil => cases h
  | cons c uri ih =>
    unfold splitResource at h
    split at h
    · next hc =>
      cases h
      exact ⟨by rw [hc]; rfl, by simp⟩
    · next hc =>
      obtain ⟨⟨resource', rest'⟩, hr, hr'⟩ := Option.map_eq_some_iff.mp h
      cases hr'
      obtain ⟨rfl, hnot⟩ := ih hr
      exact ⟨rfl, by simp [hnot, Ne.symm hc]⟩

theorem FirstAt.tail {sep root text : CString} {c : UInt8} (h : FirstAt sep (c :: root) text) :
    FirstAt sep root text := by
  intro i hi
  exact h (i + 1) (Nat.succ_lt_succ hi)

theorem splitRoot_append {root text : CString} (h : FirstAt rootEnd root text) :
    splitRoot (root ++ rootEnd ++ text) = some (root, text) := by
  induction root with
  | nil => rfl
  | cons c root ih =>
    have hfirst := h 0 (Nat.succ_pos _)
    have ih := ih h.tail
    obtain ⟨x, y, rest, hrest⟩ : ∃ x y rest, root ++ rootEnd ++ text = x :: y :: rest := by
      rcases root with _ | ⟨x, _ | ⟨y, root⟩⟩
      · exact ⟨_, _, _, rfl⟩
      · exact ⟨_, _, _, rfl⟩
      · exact ⟨_, _, _, rfl⟩
    rw [List.cons_append, List.cons_append, hrest] at hfirst ⊢
    rw [hrest] at ih
    have hne : ¬ (c = 41 ∧ x = 58 ∧ y = 47) := by
      rintro ⟨rfl, rfl, rfl⟩
      exact hfirst ⟨rest, rfl⟩
    rw [splitRoot, if_neg hne, ih]
    rfl

theorem of_splitRoot {uri root text : CString} (h : splitRoot uri = some (root, text)) :
    uri = root ++ rootEnd ++ text ∧ FirstAt rootEnd root text := by
  fun_induction splitRoot uri generalizing root with
  | case1 x y z uri hsep =>
    obtain ⟨rfl, rfl, rfl⟩ := hsep
    cases h
    exact ⟨rfl, fun i hi => absurd hi (Nat.not_lt_zero i)⟩
  | case2 x y z uri hsep ih =>
    obtain ⟨⟨root', text'⟩, hr, hr'⟩ := Option.map_eq_some_iff.mp h
    cases hr'
    obtain ⟨huri, hfirst⟩ := ih hr
    refine ⟨by rw [huri]; rfl, fun i hi => ?_⟩
    cases i with
    | zero =>
      rintro ⟨rest, hrest⟩
      rw [List.drop_zero, List.cons_append, List.cons_append, ← huri] at hrest
      cases hrest
      exact hsep ⟨rfl, rfl, rfl⟩
    | succ i => exact hfirst i (Nat.lt_of_succ_lt_succ hi)
  | case3 => cases h

theorem splitHash_eq_none {text : CString} : splitHash text = none ↔ Menu.hash ∉ text := by
  induction text with
  | nil => simp [splitHash]
  | cons c text ih =>
    unfold splitHash
    rw [List.mem_cons, not_or, ← ih]
    cases splitHash text with
    | some r => simp
    | none => simp [eq_comm]

theorem splitHash_append {digits : CString} (h : Menu.hash ∉ digits) (path : CString) :
    splitHash (path ++ Menu.hash :: digits) = some (path, digits) := by
  induction path with
  | nil =>
    rw [List.nil_append, splitHash, splitHash_eq_none.mpr h]
    rfl
  | cons c path ih =>
    rw [List.cons_append, splitHash, ih]

theorem of_splitHash {text path digits : CString} (h : splitHash text = some (path, digits)) :
    text = path ++ Menu.hash :: digits ∧ Menu.hash ∉ digits := by
  induction text generalizing path with
  | nil => cases h
  | cons c text ih =>
    unfold splitHash at h
    cases hrest : splitHash text with
    | some r =>
      rw [hrest] at h
      cases h
      obtain ⟨rfl, hnot⟩ := ih hrest
      exact ⟨rfl, hnot⟩
    | none =>
      rw [hrest] at h
      dsimp only at h
      split at h
      · next hc =>
        cases h
        exact ⟨by rw [hc]; rfl, splitHash_eq_none.mp hrest⟩
      · cases h

/-! ## The hash -/

theorem word_eq {s : String} {l : List Char} (h : s = String.ofList l) :
    word s = l.map fun c => UInt8.ofNat c.toNat := by
  rw [h, word, String.toList_ofList]

theorem word_append (s t : String) : word (s ++ t) = word s ++ word t := by
  rw [word, word, word, String.toList_append, List.map_append]

theorem hexDigits_eq :
    hexDigits = (List.range' 48 10).map UInt8.ofNat ++ (List.range' 97 6).map UInt8.ofNat ++
      (List.range' 65 6).map UInt8.ofNat :=
  word_eq rfl

theorem isHexDigit_iff (c : UInt8) : isHexDigit c = true ↔ c ∈ hexDigits := by
  rw [hexDigits_eq, List.mem_append, List.mem_append, mem_map_range' (by decide), mem_map_range' (by decide),
    mem_map_range' (by decide)]
  simp only [isHexDigit, Bool.or_eq_true, Bool.and_eq_true, decide_eq_true_eq, UInt8.le_iff_toNat_le,
    UInt8.reduceToNat]
  omega

theorem firstInvalid_eq_none {digits : CString} :
    firstInvalid digits = none ↔ ∀ c ∈ digits, c ∈ hexDigits := by
  unfold firstInvalid
  rw [List.findIdx?_eq_none_iff]
  simp only [Bool.not_eq_false', isHexDigit_iff]

theorem hash_not_mem_of_isHash {digits : CString} (h : IsHash digits) : Menu.hash ∉ digits := by
  intro hmem
  exact absurd ((isHexDigit_iff _).mpr (h.2 _ hmem)) (by decide)

/-! ## The whole URI -/

section
variable {resource root text path digits : CString}

/-- Without a hash, once resource, root and text are apart. -/
theorem uriResolve_of_noHash (hresource : 40 ∉ resource) (hroot : FirstAt rootEnd root text) (htext : text ≠ [])
    (hlen : (resource ++ 40 :: (root ++ rootEnd ++ text)).length < uriBufSize) (hhash : splitHash text = none) :
    uriResolve (resource ++ 40 :: (root ++ rootEnd ++ text)) = .ok (some ⟨resource, root, text, none⟩) := by
  unfold uriResolve
  rw [if_neg (by omega), splitResource_append hresource]
  dsimp only
  rw [splitRoot_append hroot]
  dsimp only
  rw [if_neg htext, hhash]

theorem uriResolve_of_isHash (hresource : 40 ∉ resource) (hroot : FirstAt rootEnd root text) (htext : text ≠ [])
    (hlen : (resource ++ 40 :: (root ++ rootEnd ++ text)).length < uriBufSize)
    (hsplit : splitHash text = some (path, digits)) (hhash : IsHash digits) :
    uriResolve (resource ++ 40 :: (root ++ rootEnd ++ text)) =
      .ok (some ⟨resource, root, path, some digits⟩) := by
  unfold uriResolve
  rw [if_neg (by omega), splitResource_append hresource]
  dsimp only
  rw [splitRoot_append hroot]
  dsimp only
  rw [if_neg htext, hsplit]
  dsimp only
  rw [if_neg (not_not.mpr hhash.1), firstInvalid_eq_none.mpr hhash.2]

theorem uriResolve_of_not_isHash (hresource : 40 ∉ resource) (hroot : FirstAt rootEnd root text)
    (htext : text ≠ []) (hlen : (resource ++ 40 :: (root ++ rootEnd ++ text)).length < uriBufSize)
    (hsplit : splitHash text = some (path, digits)) (hhash : ¬ IsHash digits) :
    ∃ msg, uriResolve (resource ++ 40 :: (root ++ rootEnd ++ text)) = .error (.panic msg) := by
  unfold uriResolve
  rw [if_neg (by omega), splitResource_append hresource]
  dsimp only
  rw [splitRoot_append hroot]
  dsimp only
  rw [if_neg htext, hsplit]
  dsimp only
  by_cases hlength : digits.length ≠ 128
  · rw [if_pos hlength]
    exact ⟨_, rfl⟩
  · rw [if_neg hlength]
    cases hinvalid : firstInvalid digits with
    | some j => exact ⟨_, rfl⟩
    | none => exact absurd ⟨not_not.mp hlength, firstInvalid_eq_none.mp hinvalid⟩ hhash

end

theorem uriResolve_of_wellFormed {parts : UriParts} (h : parts.WellFormed)
    (hlen : parts.format.length < uriBufSize) : uriResolve parts.format = .ok (some parts) := by
  obtain ⟨resource, root, path, digits⟩ := parts
  cases digits with
  | none => exact uriResolve_of_noHash h.resource h.root h.text hlen (splitHash_eq_none.mpr (h.path rfl))
  | some digits =>
    have hhash := h.digits digits rfl
    exact uriResolve_of_isHash h.resource h.root h.text hlen (splitHash_append (hash_not_mem_of_isHash hhash) path)
      hhash

/-- Everything else is as required, but what follows the last `#` is no hash. -/
def BadHash (uri : CString) : Prop := ∃ resource root path digits,
  uri = resource ++ 40 :: (root ++ rootEnd ++ (path ++ Menu.hash :: digits)) ∧ 40 ∉ resource ∧
    FirstAt rootEnd root (path ++ Menu.hash :: digits) ∧ Menu.hash ∉ digits ∧ ¬ IsHash digits

theorem uriResolve_of_badHash {uri : CString} (h : BadHash uri) (hlen : uri.length < uriBufSize) :
    ∃ msg, uriResolve uri = .error (.panic msg) := by
  obtain ⟨resource, root, path, digits, rfl, hresource, hroot, hnot, hbad⟩ := h
  exact uriResolve_of_not_isHash hresource hroot (by simp) hlen (splitHash_append hnot path) hbad

/-- A string of neither form is not taken apart. -/
theorem uriResolve_cases {uri : CString} (hlen : uri.length < uriBufSize) :
    (∃ parts : UriParts, parts.WellFormed ∧ uri = parts.format) ∨ BadHash uri ∨
      uriResolve uri = .ok none := by
  cases hresource : splitResource uri with
  | none =>
    refine Or.inr (Or.inr ?_)
    unfold uriResolve
    rw [if_neg (by omega), hresource]
  | some r =>
    obtain ⟨resource, rest⟩ := r
    obtain ⟨rfl, hnoparen⟩ := of_splitResource hresource
    cases hroot : splitRoot rest with
    | none =>
      refine Or.inr (Or.inr ?_)
      unfold uriResolve
      rw [if_neg (by omega), hresource]
      dsimp only
      rw [hroot]
    | some r =>
      obtain ⟨root, text⟩ := r
      obtain ⟨rfl, hfirst⟩ := of_splitRoot hroot
      by_cases htext : text = []
      · refine Or.inr (Or.inr ?_)
        unfold uriResolve
        rw [if_neg (by omega), hresource]
        dsimp only
        rw [hroot]
        dsimp only
        rw [if_pos htext]
      cases hhash : splitHash text with
      | none =>
        have hpath := splitHash_eq_none.mp hhash
        refine Or.inl ⟨⟨resource, root, text, none⟩, ?_, rfl⟩
        exact ⟨hnoparen, hfirst, htext, fun _ => hpath, by simp⟩
      | some r =>
        obtain ⟨path, digits⟩ := r
        obtain ⟨rfl, hnot⟩ := of_splitHash hhash
        by_cases hdigits : IsHash digits
        · refine Or.inl ⟨⟨resource, root, path, some digits⟩, ?_, rfl⟩
          refine ⟨hnoparen, hfirst, htext, by simp, fun digits' h => ?_⟩
          cases h
          exact hdigits
        · exact Or.inr (Or.inl ⟨resource, root, path, digits, rfl, hnoparen, hfirst, hnot, hdigits⟩)

/-- `uri_resolve` takes apart exactly the strings of the grammar, into the parts they were put
together from, and panics exactly for a string that only its hash spoils. -/
theorem uriResolve_grammar (uri : CString) (hlen : uri.length < uriBufSize) :
    (∀ parts, uriResolve uri = .ok (some parts) ↔ parts.WellFormed ∧ uri = parts.format) ∧
    ((∃ msg, uriResolve uri = .error (.panic msg)) ↔ BadHash uri) ∧
    ∀ parts : UriParts, parts.WellFormed → uri = parts.format → uriResolve uri = .ok (some parts) := by
  have hresolved : ∀ parts : UriParts, parts.WellFormed → uri = parts.format →
      uriResolve uri = .ok (some parts) := by
    rintro parts hparts rfl
    exact uriResolve_of_wellFormed hparts hlen
  rcases uriResolve_cases hlen with ⟨parts, hparts, huri⟩ | hbad | hnone
  · have hok := hresolved parts hparts huri
    refine ⟨fun parts' => ⟨fun h => ?_, fun h => hresolved parts' h.1 h.2⟩,
      ⟨?_, fun hbad => ?_⟩, hresolved⟩
    · cases hok.symm.trans h
      exact ⟨hparts, huri⟩
    · rintro ⟨msg, hmsg⟩
      cases hok.symm.trans hmsg
    · obtain ⟨msg, hmsg⟩ := uriResolve_of_badHash hbad hlen
      cases hok.symm.trans hmsg
  · obtain ⟨msg, hmsg⟩ := uriResolve_of_badHash hbad hlen
    refine ⟨fun parts => ⟨fun h => ?_, fun h => hresolved parts h.1 h.2⟩,
      ⟨fun _ => hbad, fun _ => ⟨msg, hmsg⟩⟩, hresolved⟩
    cases hmsg.symm.trans h
  · refine ⟨fun parts => ⟨fun h => ?_, fun h => hresolved parts h.1 h.2⟩,
      ⟨?_, fun hbad => ?_⟩, hresolved⟩
    · cases hnone.symm.trans h
    · rintro ⟨msg, hmsg⟩
      cases hnone.symm.trans hmsg
    · obtain ⟨msg, hmsg⟩ := uriResolve_of_badHash hbad hlen
      cases hnone.symm.trans hmsg

theorem uriResolve_grammar_boot : (word "boot():/limine.conf").length < uriBufSize ∧
    uriResolve (word "boot():/limine.conf") =
      .ok (some ⟨word "boot", word "", word "limine.conf", none⟩) := by
  have hlen : (word "boot():/limine.conf").length < uriBufSize := by decide
  refine ⟨hlen, ((uriResolve_grammar _ hlen).1 _).mpr ⟨?_, by decide⟩⟩
  exact {
    resource := by decide
    root := fun i hi => absurd hi (Nat.not_lt_zero i)
    text := by decide
    path := fun _ => by decide
    digits := fun _ h => by cases h }

end Limine.Uri
