import Limine.Lib.Numbering
import Limine.Menu.Path
import Mathlib.Data.List.Nodup

/-!
# Boot Loader Interface identifiers

Each bootable entry is published under an identifier made from its path: `bli_entry_base_id` maps
the path to the characters allowed in a file name, and `bli_entry_id` appends a number to all but
the first of the entries that this maps to one identifier.  A numbered identifier may still be
what another entry's path maps to (`bliIds_iff`).
-/

namespace Limine.Menu

open Limine.Lib

/-- `BLI_ID_MAX`. -/
def bliIdMax : Nat := 256

def dash : UInt8 := 45
def dot : UInt8 := 46

/-- `bli_id_char_ok`. -/
def bliIdCharOk (c : UInt8) : Bool :=
  (48 ≤ c && c ≤ 57) || (97 ≤ c && c ≤ 122) || (65 ≤ c && c ≤ 90) || c = 43 || c = 95 || c = dot ||
    c = 64 || c = dash

/-- `should_skip_entry`: `unsuitable` is what it finds in the body of an entry that is not a
directory. -/
def shouldSkipEntry (unsuitable : MenuEntry → Bool) (e : MenuEntry) (directory : Bool) : Bool :=
  if directory then false else unsuitable e

section
variable (unsuitable : MenuEntry → Bool) (menuTree : MenuTree)

/-- `bli_entry_base_id`. -/
def bliEntryBaseId (entry : Ref) : CString :=
  let path := getEntryPath (shouldSkipEntry unsuitable) menuTree menuPathMax entry
  let p := if path.head? = some slash then path.tail else path
  let buf := (p.take (bliIdMax - 24)).map fun c =>
    if bliIdCharOk c then c else if c = slash then dot else dash
  if buf = [] ∨ buf = [dot] ∨ buf = [dot, dot] then buf ++ [dash] else buf

/-- `bli_id_dups_before` from sibling number `n` under `parent` on: whether `stop` was reached, and
`*dups`. -/
def bliIdDupsBefore (stop : Ref) (base : CString) : MenuTree → Ref → Nat → Nat → Bool × Nat
  | .null, _, _, dups => (false, dups)
  | .node e _ sub next, parent, n, dups =>
    if shouldSkipEntry unsuitable e sub.isNode then
      bliIdDupsBefore stop base next parent (n + 1) dups
    else if sub.isNode then
      let r := bliIdDupsBefore stop base sub (n :: parent) 0 dups
      if r.1 then (true, r.2) else bliIdDupsBefore stop base next parent (n + 1) r.2
    else if n :: parent = stop then (true, dups)
    else
      bliIdDupsBefore stop base next parent (n + 1)
        (if bliEntryBaseId unsuitable menuTree (n :: parent) = base then dups + 1 else dups)

/-- `bli_entry_id`. -/
def bliEntryId (entry : Ref) : CString :=
  let buf := bliEntryBaseId unsuitable menuTree entry
  let dups := (bliIdDupsBefore unsuitable menuTree entry buf menuTree [] 0 0).2
  if dups = 0 then buf else buf ++ dash :: decimal (dups + 1)

/-- `bli_id_to_entry` from sibling number `n` under `parent` on. -/
def bliIdToEntry (id : CString) : MenuTree → Ref → Nat → Option Ref
  | .null, _, _ => none
  | .node e _ sub next, parent, n =>
    if shouldSkipEntry unsuitable e sub.isNode then bliIdToEntry id next parent (n + 1)
    else if sub.isNode then
      match bliIdToEntry id sub (n :: parent) 0 with
      | some found => some found
      | none => bliIdToEntry id next parent (n + 1)
    else if bliEntryId unsuitable menuTree (n :: parent) = id then some (n :: parent)
    else bliIdToEntry id next parent (n + 1)

/-- `bli_publish_entries_walk`: the identifiers it adds. -/
def bliPublishEntriesWalk : MenuTree → Ref → Nat → List CString
  | .null, _, _ => []
  | .node e _ sub next, parent, n =>
    if shouldSkipEntry unsuitable e sub.isNode then bliPublishEntriesWalk next parent (n + 1)
    else if sub.isNode then
      bliPublishEntriesWalk sub (n :: parent) 0 ++ bliPublishEntriesWalk next parent (n + 1)
    else bliEntryId unsuitable menuTree (n :: parent) :: bliPublishEntriesWalk next parent (n + 1)

/-- The entries that can be booted, in menu order. -/
def leaves : MenuTree → Ref → Nat → List Ref
  | .null, _, _ => []
  | .node e _ sub next, parent, n =>
    if shouldSkipEntry unsuitable e sub.isNode then leaves next parent (n + 1)
    else if sub.isNode then leaves sub (n :: parent) 0 ++ leaves next parent (n + 1)
    else (n :: parent) :: leaves next parent (n + 1)

/-- The entry at `ref` can be booted: it is there, is no directory and is not skipped. -/
def IsLeaf (ref : Ref) : Prop :=
  ∃ e x next, menuTree.entry ref = .node e x .null next ∧
    shouldSkipEntry unsuitable e false = false

/-- What systemd takes for an identifier. -/
def BliIdOk (id : CString) : Prop :=
  (∀ c ∈ id, bliIdCharOk c = true) ∧ id ≠ [] ∧ id ≠ [dot] ∧ id ≠ [dot, dot]

end

/-! ## The walks over the leaves -/

/-- A leaf by its numbers from the top level down. -/
def LeafAt (unsuitable : MenuEntry → Bool) (t : MenuTree) (i : Nat) : List Nat → Prop
  | [] => ∃ e x next, t.drop i = .node e x .null next ∧
      shouldSkipEntry unsuitable e false = false
  | j :: js => LeafAt unsuitable (t.drop i).subOf j js

/-- `bli_id_dups_before` on a list of leaves with the base identifiers `base`. -/
def dupsIn (base : Ref → CString) (stop : Ref) (id : CString) : List Ref → Nat → Bool × Nat
  | [], dups => (false, dups)
  | ref :: refs, dups =>
    if ref = stop then (true, dups)
    else dupsIn base stop id refs (if base ref = id then dups + 1 else dups)

section
variable {unsuitable : MenuEntry → Bool} {menuTree : MenuTree}

theorem shouldSkipEntry_dir {e : MenuEntry} {directory : Bool}
    (h : shouldSkipEntry unsuitable e directory = true) : directory = false := by
  cases directory with
  | false => rfl
  | true => simp [shouldSkipEntry] at h

theorem leafAt_null (is : List Nat) : ∀ i, ¬LeafAt unsuitable .null i is := by
  induction is with
  | nil => simp [LeafAt]
  | cons j js ih =>
    intro i h
    rw [LeafAt, MenuTree.drop_null] at h
    exact ih j h

theorem leafAt_succ (e : MenuEntry) (x : Bool) (sub next : MenuTree) (i : Nat) (is : List Nat) :
    LeafAt unsuitable (.node e x sub next) (i + 1) is ↔ LeafAt unsuitable next i is := by
  cases is <;> rfl

/-- **Which entries the walks visit.** -/
theorem mem_leaves (t : MenuTree) : ∀ (parent : Ref) (n : Nat) (ref : Ref),
    ref ∈ leaves unsuitable t parent n ↔
      ∃ i is, ref = is.reverse ++ (n + i) :: parent ∧ LeafAt unsuitable t i is := by
  induction t with
  | null => simp [leaves, leafAt_null]
  | node e x sub next ihs ihn =>
    intro parent n ref
    -- the siblings after this one
    have hnext : (ref ∈ leaves unsuitable next parent (n + 1)) ↔
        ∃ i is, ref = is.reverse ++ (n + (i + 1)) :: parent ∧
          LeafAt unsuitable (.node e x sub next) (i + 1) is := by
      rw [ihn]
      constructor
      · rintro ⟨i, is, rfl, h⟩
        exact ⟨i, is, by rw [Nat.add_right_comm, Nat.add_assoc], (leafAt_succ ..).mpr h⟩
      · rintro ⟨i, is, rfl, h⟩
        exact ⟨i, is, by rw [Nat.add_right_comm, Nat.add_assoc], (leafAt_succ ..).mp h⟩
    have hsplit : (∃ i is, ref = is.reverse ++ (n + i) :: parent ∧
          LeafAt unsuitable (.node e x sub next) i is) ↔
        (∃ is, ref = is.reverse ++ n :: parent ∧ LeafAt unsuitable (.node e x sub next) 0 is) ∨
          ref ∈ leaves unsuitable next parent (n + 1) := by
      rw [hnext]
      constructor
      · rintro ⟨i, is, h⟩
        cases i with
        | zero => exact Or.inl ⟨is, h⟩
        | succ i => exact Or.inr ⟨i, is, h⟩
      · rintro (⟨is, h⟩ | ⟨i, is, h⟩)
        · exact ⟨0, is, h⟩
        · exact ⟨i + 1, is, h⟩
    rw [hsplit, leaves]
    split
    · next hskip =>
      obtain rfl := MenuTree.isNode_eq_false.mp (shouldSkipEntry_dir hskip)
      constructor
      · exact Or.inr
      · rintro (⟨is, -, h⟩ | h)
        · cases is with
          | nil =>
            obtain ⟨e', x', next', he, hs⟩ := h
            simp only [MenuTree.drop_zero, MenuTree.node.injEq] at he
            rw [he.1] at hskip
            exact absurd (hs.symm.trans hskip) (by simp)
          | cons j js => exact absurd h (leafAt_null js j)
        · exact h
    · next hskip =>
      rw [Bool.not_eq_true] at hskip
      split
      · next hsub =>
        rw [List.mem_append, ihs]
        apply or_congr _ Iff.rfl
        constructor
        · rintro ⟨j, js, rfl, h⟩
          exact ⟨j :: js, by simp, h⟩
        · rintro ⟨is, rfl, h⟩
          cases is with
          | nil =>
            obtain ⟨e', x', next', he, -⟩ := h
            simp only [MenuTree.drop_zero, MenuTree.node.injEq] at he
            rw [he.2.2.1] at hsub
            simp [MenuTree.isNode] at hsub
          | cons j js => exact ⟨j, js, by simp, h⟩
      · next hsub =>
        obtain rfl := MenuTree.isNode_eq_false.mp (Bool.not_eq_true _ ▸ hsub)
        rw [List.mem_cons]
        apply or_congr _ Iff.rfl
        constructor
        · rintro rfl
          exact ⟨[], rfl, e, x, next, rfl, hskip⟩
        · rintro ⟨is, rfl, h⟩
          cases is with
          | nil => rfl
          | cons j js => exact absurd h (leafAt_null js j)

theorem ref_inj {is js : List Nat} {a b : Nat} {parent : Ref}
    (h : is.reverse ++ a :: parent = js.reverse ++ b :: parent) : a = b ∧ is = js := by
  have hr := congrArg List.reverse h
  simp only [List.reverse_append, List.reverse_cons, List.reverse_reverse, List.append_assoc] at hr
  simpa using List.append_cancel_left hr

variable (unsuitable) in
theorem leaves_nodup (t : MenuTree) : ∀ (parent : Ref) (n : Nat),
    (leaves unsuitable t parent n).Nodup := by
  induction t with
  | null => simp [leaves]
  | node e x sub next ihs ihn =>
    intro parent n
    rw [leaves]
    split
    · exact ihn parent (n + 1)
    · split
      · rw [List.nodup_append]
        refine ⟨ihs _ _, ihn _ _, ?_⟩
        rintro a ha b hb rfl
        obtain ⟨j, js, h1, -⟩ := (mem_leaves _ _ _ _).mp ha
        obtain ⟨i, is, h2, -⟩ := (mem_leaves _ _ _ _).mp hb
        have h3 : (j :: js).reverse ++ n :: parent = is.reverse ++ (n + 1 + i) :: parent := by
          rw [← h2, h1]
          simp
        have := (ref_inj h3).1
        omega
      · rw [List.nodup_cons]
        refine ⟨fun hmem => ?_, ihn _ _⟩
        obtain ⟨i, is, h, -⟩ := (mem_leaves _ _ _ _).mp hmem
        have h3 : ([] : List Nat).reverse ++ n :: parent = is.reverse ++ (n + 1 + i) :: parent := h
        have := (ref_inj h3).1
        omega

theorem isLeaf_reverse (is : List Nat) : ∀ (t : MenuTree) (i : Nat),
    IsLeaf unsuitable t (is.reverse ++ [i]) ↔ LeafAt unsuitable t i is := by
  intro t i
  rw [IsLeaf, MenuTree.entry_reverse]
  induction is generalizing t i with
  | nil => rfl
  | cons j js ih => exact ih _ j

/-- **The leaves are the entries that can be booted.** -/
theorem isLeaf_iff (ref : Ref) :
    IsLeaf unsuitable menuTree ref ↔ ref ∈ leaves unsuitable menuTree [] 0 := by
  rw [mem_leaves]
  constructor
  · intro h
    rcases List.eq_nil_or_concat ref with rfl | ⟨init, i, rfl⟩
    · obtain ⟨e, x, next, he, -⟩ := h
      cases he
    · rw [List.concat_eq_append] at h ⊢
      refine ⟨i, init.reverse, by simp, ?_⟩
      rw [← isLeaf_reverse, List.reverse_reverse]
      exact h
  · rintro ⟨i, is, rfl, h⟩
    rw [Nat.zero_add]
    exact (isLeaf_reverse is menuTree i).mpr h

theorem dupsIn_append (base : Ref → CString) (stop : Ref) (id : CString) (l l' : List Ref) :
    ∀ dups, dupsIn base stop id (l ++ l') dups =
      if (dupsIn base stop id l dups).1 then (true, (dupsIn base stop id l dups).2)
      else dupsIn base stop id l' (dupsIn base stop id l dups).2 := by
  induction l with
  | nil => intro dups; rfl
  | cons ref l ih =>
    intro dups
    rw [List.cons_append, dupsIn, dupsIn]
    split
    · rfl
    · exact ih _

theorem bliIdDupsBefore_eq (stop : Ref) (id : CString) (t : MenuTree) :
    ∀ (parent : Ref) (n dups : Nat),
    bliIdDupsBefore unsuitable menuTree stop id t parent n dups =
      dupsIn (bliEntryBaseId unsuitable menuTree) stop id (leaves unsuitable t parent n) dups := by
  induction t with
  | null => intros; rfl
  | node e x sub next ihs ihn =>
    intro parent n dups
    rw [bliIdDupsBefore, leaves]
    split
    · exact ihn ..
    · split
      · simp only [dupsIn_append, ihs, ihn]
      · rw [dupsIn, ihn]

theorem bliIdToEntry_eq (id : CString) (t : MenuTree) : ∀ (parent : Ref) (n : Nat),
    bliIdToEntry unsuitable menuTree id t parent n =
      (leaves unsuitable t parent n).find? (bliEntryId unsuitable menuTree · = id) := by
  induction t with
  | null => intros; rfl
  | node e x sub next ihs ihn =>
    intro parent n
    rw [bliIdToEntry, leaves]
    split
    · exact ihn ..
    · split
      · rw [List.find?_append, ihs, ihn]
        cases (leaves unsuitable sub (n :: parent) 0).find? _ <;> rfl
      · rw [List.find?_cons, ihn]
        split <;> simp [*]

/-- **What is published**: the identifiers of the entries that can be booted, in menu order. -/
theorem bliPublishEntriesWalk_eq (t : MenuTree) : ∀ (parent : Ref) (n : Nat),
    bliPublishEntriesWalk unsuitable menuTree t parent n =
      (leaves unsuitable t parent n).map (bliEntryId unsuitable menuTree) := by
  induction t with
  | null => intros; rfl
  | node e x sub next ihs ihn =>
    intro parent n
    rw [bliPublishEntriesWalk, leaves]
    split
    · exact ihn ..
    · split
      · rw [List.map_append, ihs, ihn]
      · rw [List.map_cons, ihn]

/-! ## What an identifier is -/

/-- A base identifier with its number. -/
def numberedId (base : CString) (n : Nat) : CString := base ++ dash :: decimal n

theorem dash_not_mem_decimal (n : Nat) : dash ∉ decimal n := by
  intro h
  exact absurd (isDigit_decimal n dash h) (by decide)

theorem numberedId_inj (a b : CString) (m n : Nat) (h : numberedId a m = numberedId b n) :
    a = b ∧ m = n := by
  have hr := congrArg List.reverse h
  simp only [numberedId, List.reverse_append, List.reverse_cons, List.append_assoc,
    List.singleton_append] at hr
  have hdigits : ∀ (k : Nat) (s : CString), ((decimal k).reverse ++ dash :: s).takeWhile (· ≠ dash) =
      (decimal k).reverse := by
    intro k s
    rw [List.takeWhile_append_of_pos]
    · simp
    · intro c hc
      have hne : c ≠ dash := by
        rintro rfl
        exact dash_not_mem_decimal k (List.mem_reverse.mp hc)
      simpa using hne
  have hmn : m = n := by
    apply decimal_inj
    rw [← List.reverse_inj, ← hdigits m a.reverse, hr, hdigits]
  subst hmn
  exact ⟨List.append_cancel_right h, rfl⟩

theorem dupsIn_get (base : Ref → CString) (id : CString) (l : List Ref) : ∀ (i : Nat)
    (h : i < l.length) (dups : Nat), l.Nodup →
    dupsIn base (l.get ⟨i, h⟩) id l dups = (true, dups + ((l.take i).map base).count id) := by
  induction l with
  | nil => simp
  | cons ref l ih =>
    intro i h dups hnodup
    rw [dupsIn]
    cases i with
    | zero => simp
    | succ i =>
      have hl : i < l.length := Nat.lt_of_succ_lt_succ h
      have hne : ref ≠ l.get ⟨i, hl⟩ := by
        rintro rfl
        exact (List.nodup_cons.mp hnodup).1 (List.get_mem l ⟨i, hl⟩)
      show (if ref = l.get ⟨i, hl⟩ then _ else dupsIn base (l.get ⟨i, hl⟩) id l _) = _
      rw [if_neg hne, ih i hl _ (List.nodup_cons.mp hnodup).2, List.take_succ_cons, List.map_cons,
        List.count_cons]
      split
      · simp_all
        omega
      · simp_all

/-- The base identifiers of the entries that can be booted, in menu order. -/
def baseIds (unsuitable : MenuEntry → Bool) (menuTree : MenuTree) : List CString :=
  (leaves unsuitable menuTree [] 0).map (bliEntryBaseId unsuitable menuTree)

theorem bliEntryId_get (i : Nat) (h : i < (leaves unsuitable menuTree [] 0).length)
    (h' : i < (baseIds unsuitable menuTree).length) :
    bliEntryId unsuitable menuTree ((leaves unsuitable menuTree [] 0).get ⟨i, h⟩) =
      numbered numberedId (baseIds unsuitable menuTree) i h' := by
  have hget : (baseIds unsuitable menuTree).get ⟨i, h'⟩ =
      bliEntryBaseId unsuitable menuTree ((leaves unsuitable menuTree [] 0).get ⟨i, h⟩) := by
    simp [baseIds]
  have hocc : occurrence (baseIds unsuitable menuTree) i h' =
      (bliIdDupsBefore unsuitable menuTree ((leaves unsuitable menuTree [] 0).get ⟨i, h⟩)
        (bliEntryBaseId unsuitable menuTree ((leaves unsuitable menuTree [] 0).get ⟨i, h⟩))
        menuTree [] 0 0).2 := by
    rw [bliIdDupsBefore_eq, dupsIn_get _ _ _ i h 0 (leaves_nodup unsuitable menuTree [] 0), Nat.zero_add,
      occurrence, hget, List.map_take]
    rfl
  rw [numbered, hget, hocc]
  rfl

theorem bliIdOk_baseId (ref : Ref) : BliIdOk (bliEntryBaseId unsuitable menuTree ref) := by
  have hmap : ∀ (s : CString), ∀ c ∈ s.map (fun c =>
      if bliIdCharOk c then c else if c = slash then dot else dash), bliIdCharOk c = true := by
    intro s c hc
    obtain ⟨b, -, rfl⟩ := List.mem_map.mp hc
    split
    · assumption
    · split <;> decide
  rw [bliEntryBaseId]
  set buf := List.map _ _ with hbuf
  have hok : ∀ c ∈ buf, bliIdCharOk c = true := by
    rw [hbuf]
    exact hmap _
  split
  · refine ⟨?_, by simp, ?_, ?_⟩
    · intro c hc
      rcases List.mem_append.mp hc with hc | hc
      · exact hok c hc
      · rw [List.mem_singleton.mp hc]
        decide
    · next h => rcases h with h | h | h <;> rw [h] <;> decide
    · next h => rcases h with h | h | h <;> rw [h] <;> decide
  · next h =>
    rw [not_or, not_or] at h
    exact ⟨hok, h.1, h.2.1, h.2.2⟩

theorem bliIdCharOk_digit {c : UInt8} (h : isDigit c = true) : bliIdCharOk c = true := by
  rw [isDigit] at h
  simp [bliIdCharOk, h]

theorem bliIdOk_numberedId {base : CString} (h : BliIdOk base) (n : Nat) :
    BliIdOk (numberedId base n) := by
  have hmem : dash ∈ numberedId base n := by simp [numberedId]
  refine ⟨?_, ?_, ?_, ?_⟩
  · intro c hc
    rcases List.mem_append.mp hc with hc | hc
    · exact h.1 c hc
    · rcases List.mem_cons.mp hc with rfl | hc
      · decide
      · exact bliIdCharOk_digit (isDigit_decimal n c hc)
  · exact List.ne_nil_of_mem hmem
  · intro heq
    rw [heq] at hmem
    exact absurd hmem (by decide)
  · intro heq
    rw [heq] at hmem
    exact absurd hmem (by decide)

/-- **Every identifier is one systemd takes.** -/
theorem bliIdOk_entryId (ref : Ref) : BliIdOk (bliEntryId unsuitable menuTree ref) := by
  rw [bliEntryId]
  split
  · exact bliIdOk_baseId ref
  · exact bliIdOk_numberedId (bliIdOk_baseId ref) _

/-- The identifiers are distinct if they are so by position. -/
theorem entryIds_distinct_iff :
    (∀ a b, IsLeaf unsuitable menuTree a → IsLeaf unsuitable menuTree b → a ≠ b →
      bliEntryId unsuitable menuTree a ≠ bliEntryId unsuitable menuTree b) ↔
    ∀ base n, 2 ≤ n → n ≤ (baseIds unsuitable menuTree).count base →
      numberedId base n ∉ baseIds unsuitable menuTree := by
  have hlen : (baseIds unsuitable menuTree).length = (leaves unsuitable menuTree [] 0).length := by
    simp [baseIds]
  have hnodup := leaves_nodup unsuitable menuTree [] 0
  rw [← numbered_injective_iff numberedId_inj]
  constructor
  · intro hdistinct i j hi hj heq
    by_contra hij
    have hi' : i < (leaves unsuitable menuTree [] 0).length := hlen ▸ hi
    have hj' : j < (leaves unsuitable menuTree [] 0).length := hlen ▸ hj
    refine hdistinct _ _ (isLeaf_iff _ |>.mpr (List.get_mem _ ⟨i, hi'⟩))
      (isLeaf_iff _ |>.mpr (List.get_mem _ ⟨j, hj'⟩)) ?_ ?_
    · intro hget
      exact hij (Fin.mk.inj (List.nodup_iff_injective_get.mp hnodup hget))
    · rw [bliEntryId_get i hi' hi, bliEntryId_get j hj' hj, heq]
  · intro hnumbered a b ha hb hab heq
    obtain ⟨⟨i, hi⟩, rfl⟩ := List.mem_iff_get.mp ((isLeaf_iff a).mp ha)
    obtain ⟨⟨j, hj⟩, rfl⟩ := List.mem_iff_get.mp ((isLeaf_iff b).mp hb)
    have hij := hnumbered i j (hlen ▸ hi) (hlen ▸ hj) (by
      rw [← bliEntryId_get i hi, ← bliEntryId_get j hj, heq])
    subst hij
    exact hab rfl

theorem bliIdToEntry_entryId (hdistinct : ∀ a b, IsLeaf unsuitable menuTree a →
      IsLeaf unsuitable menuTree b → a ≠ b →
      bliEntryId unsuitable menuTree a ≠ bliEntryId unsuitable menuTree b) {a : Ref}
    (ha : IsLeaf unsuitable menuTree a) :
    bliIdToEntry unsuitable menuTree (bliEntryId unsuitable menuTree a) menuTree [] 0 = some a := by
  rw [bliIdToEntry_eq]
  have hmem := (isLeaf_iff a).mp ha
  cases hfind : (leaves unsuitable menuTree [] 0).find?
      (bliEntryId unsuitable menuTree · = bliEntryId unsuitable menuTree a) with
  | none => simpa using List.find?_eq_none.mp hfind a hmem
  | some b =>
    have hb := (isLeaf_iff b).mpr (List.mem_of_find?_eq_some hfind)
    have hid : bliEntryId unsuitable menuTree b = bliEntryId unsuitable menuTree a := by
      simpa using List.find?_some hfind
    by_contra hne
    exact hdistinct b a hb ha (fun h => hne (by rw [h])) hid

end

/-- **When the identifiers tell the entries apart**: they are distinct, well formed and lead back
to their entries if and only if no entry's base identifier is `base-N` for one that `N` entries or
more have. -/
theorem bliIds_iff (unsuitable : MenuEntry → Bool) (menuTree : MenuTree) :
    ((∀ a b, IsLeaf unsuitable menuTree a → IsLeaf unsuitable menuTree b → a ≠ b →
        bliEntryId unsuitable menuTree a ≠ bliEntryId unsuitable menuTree b) ∧
      (∀ a, IsLeaf unsuitable menuTree a → BliIdOk (bliEntryId unsuitable menuTree a)) ∧
      ∀ a, IsLeaf unsuitable menuTree a → bliIdToEntry unsuitable menuTree
        (bliEntryId unsuitable menuTree a) menuTree [] 0 = some a) ↔
    ∀ base n, 2 ≤ n → n ≤ (baseIds unsuitable menuTree).count base →
      numberedId base n ∉ baseIds unsuitable menuTree := by
  rw [← entryIds_distinct_iff]
  constructor
  · intro h
    exact h.1
  · intro h
    exact ⟨h, fun a _ => bliIdOk_entryId a, fun a ha => bliIdToEntry_entryId h ha⟩

/-- Entries named `a b`, `a-b` and `a-b-2`. -/
def clashTree : MenuTree :=
  .node ⟨[97, 32, 98], none, []⟩ false .null
    (.node ⟨[97, dash, 98], none, []⟩ false .null
      (.node ⟨[97, dash, 98, dash, 50], none, []⟩ false .null .null))

/-- The second of them is published under the name of the third, which cannot be chosen then. -/
theorem bliIds_clash :
    ¬((∀ a b, IsLeaf (fun _ => false) clashTree a → IsLeaf (fun _ => false) clashTree b → a ≠ b →
        bliEntryId (fun _ => false) clashTree a ≠ bliEntryId (fun _ => false) clashTree b) ∧
      (∀ a, IsLeaf (fun _ => false) clashTree a →
        BliIdOk (bliEntryId (fun _ => false) clashTree a)) ∧
      ∀ a, IsLeaf (fun _ => false) clashTree a → bliIdToEntry (fun _ => false) clashTree
        (bliEntryId (fun _ => false) clashTree a) clashTree [] 0 = some a) := by
  rintro ⟨hdistinct, -, -⟩
  exact hdistinct [1] [2] ⟨_, _, _, rfl, rfl⟩ ⟨_, _, _, rfl, rfl⟩ (by decide) (by decide)

end Limine.Menu
