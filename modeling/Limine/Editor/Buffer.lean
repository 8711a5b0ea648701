import Mathlib.Data.List.Induction
import Limine.Lib.Triple
import Limine.Menu.Entry

/-!
# The editor's buffer

A string in an allocation of fixed size, ended by a NUL.  Every byte is read and written through the
bounds of the allocation; `insertAt` and `deleteAt` are the loops that move the bytes behind the
cursor.
-/

namespace Limine.Editor

open Limine.Lib Limine.Menu

def editorMaxBufferSize : Nat := 4096

def newline : UInt8 := 10
def tab : UInt8 := 9

/-- Why there is no result: an access outside of an allocation, a `panic`, or the fuel of a loop of
the model. -/
inductive Fault
  | outside
  | panic (msg : String)
  | outOfFuel
deriving DecidableEq, Repr

/-- The allocation `buffer`. -/
structure Buffer where
  bytes : List UInt8
  size : bytes.length = editorMaxBufferSize
deriving DecidableEq, Repr

def Buffer.read (buffer : Buffer) (i : Nat) : Except Fault UInt8 :=
  match buffer.bytes[i]? with
  | some c => .ok c
  | none => .error .outside

def Buffer.write (buffer : Buffer) (i : Nat) (c : UInt8) : Except Fault Buffer :=
  if i < editorMaxBufferSize then .ok ⟨buffer.bytes.set i c, by rw [List.length_set, buffer.size]⟩
  else .error .outside

/-! ## Scanning -/

/-- A loop that reads on from byte `i`, which `bytes` starts with, to the first one that stops it. -/
def scanTo (stop : UInt8 → Bool) : List UInt8 → Nat → Except Fault Nat
  | [], _ => .error .outside
  | c :: bytes, i => if stop c then .ok i else scanTo stop bytes (i + 1)

def isEnd (c : UInt8) : Bool := c = 0
def isLineEnd (c : UInt8) : Bool := c = newline || c = 0

/-- `strlen` -/
def strlen (buffer : Buffer) : Except Fault Nat := scanTo isEnd buffer.bytes 0

/-- The loop of `get_line_offset`: `index` is what is left of `_index`. -/
def lineOffsetFrom : List UInt8 → Nat → Nat → Nat → Except Fault Nat
  | [], _, _, _ => .error .outside
  | c :: bytes, index, i, offset =>
    if c = 0 then .ok offset
    else if index = 0 then .ok offset
    else lineOffsetFrom bytes (index - 1) (i + 1) (if c = newline then i + 1 else offset)

/-- `get_line_offset`; the displacement is `index` less the offset. -/
def getLineOffset (index : Nat) (buffer : Buffer) : Except Fault Nat :=
  lineOffsetFrom buffer.bytes index 0 0

/-- `get_line_length` -/
def getLineLength (index : Nat) (buffer : Buffer) : Except Fault Nat := do
  let i ← scanTo isLineEnd (buffer.bytes.drop index) index
  .ok (i - index)

/-- `get_next_line` -/
def getNextLine (index : Nat) (buffer : Buffer) : Except Fault Nat := do
  let c ← buffer.read index
  if c = 0 then .ok index
  else do
    let offset ← getLineOffset index buffer
    let displacement := index - offset
    let index ← scanTo isLineEnd (buffer.bytes.drop index) index
    let c ← buffer.read index
    if c = 0 then .ok index
    else do
      let index := index + 1
      let nextLineLength ← getLineLength index buffer
      .ok (index + if nextLineLength < displacement then nextLineLength else displacement)

/-- `get_prev_line` -/
def getPrevLine (index : Nat) (buffer : Buffer) : Except Fault Nat := do
  let offset ← getLineOffset index buffer
  let displacement := index - offset
  if offset ≠ 0 then do
    let prevLineOffset ← getLineOffset (offset - 1) buffer
    let prevLineLength ← getLineLength prevLineOffset buffer
    .ok (prevLineOffset + if prevLineLength < displacement then prevLineLength else displacement)
  else .ok offset

/-! ## Moving the bytes behind the cursor -/

/-- The downward loop of an insertion, from byte `i` on; below 0 the index wraps. -/
def shiftUp (cursorOffset : Nat) : Nat → Buffer → Except Fault Buffer
  | i, buffer => do
    let c ← buffer.read i
    let buffer ← buffer.write (i + 1) c
    if i = cursorOffset then .ok buffer
    else
      match i with
      | 0 => .error .outside
      | i + 1 => shiftUp cursorOffset i buffer

/-- The insertion of `c`. -/
def insertAt (cursorOffset bufferLen : Nat) (c : UInt8) (buffer : Buffer) : Except Fault Buffer := do
  let buffer ← shiftUp cursorOffset bufferLen buffer
  buffer.write cursorOffset c

/-- The loop of a deletion, at byte `i` with `n` turns left. -/
def shiftDown : Nat → Nat → Buffer → Except Fault Buffer
  | 0, _, buffer => .ok buffer
  | n + 1, i, buffer => do
    let c ← buffer.read (i + 1)
    let buffer ← buffer.write i c
    if c = 0 then .ok buffer else shiftDown n (i + 1) buffer

/-- The deletion of the byte under the cursor. -/
def deleteAt (cursorOffset bufferLen : Nat) (buffer : Buffer) : Except Fault Buffer :=
  shiftDown (bufferLen - cursorOffset) cursorOffset buffer

/-! ## Strings in the buffer -/

/-- The buffer holds the string `text`, and `rest` behind its NUL. -/
structure Holds (buffer : Buffer) (text rest : List UInt8) : Prop where
  bytes_eq : buffer.bytes = text ++ 0 :: rest
  text_ne : ∀ c ∈ text, c ≠ 0

section
variable {buffer : Buffer} {text rest : List UInt8} (h : Holds buffer text rest)

include h

theorem Holds.length_eq : text.length + (rest.length + 1) = editorMaxBufferSize := by
  rw [← buffer.size, h.bytes_eq, List.length_append, List.length_cons]

theorem Holds.length_lt : text.length < editorMaxBufferSize := by
  have := h.length_eq
  omega

/-- A read up to the NUL. -/
theorem Holds.read_eq {i : Nat} (hi : i ≤ text.length) : buffer.read i = .ok (text.getD i 0) := by
  have hget : buffer.bytes[i]? = some (text.getD i 0) := by
    rw [h.bytes_eq]
    rcases Nat.lt_or_eq_of_le hi with hlt | rfl
    · rw [List.getElem?_append_left hlt, List.getD_eq_getElem?_getD, List.getElem?_eq_getElem hlt, Option.getD_some]
    · rw [List.getElem?_append_right (Nat.le_refl _), Nat.sub_self, List.getElem?_cons_zero,
        List.getD_eq_getElem?_getD, List.getElem?_eq_none (Nat.le_refl _), Option.getD_none]
  rw [Buffer.read, hget]

theorem Holds.drop_eq {i : Nat} (hi : i ≤ text.length) : buffer.bytes.drop i = text.drop i ++ 0 :: rest := by
  rw [h.bytes_eq, List.drop_append_of_le_length hi]

end

/-! ## Where the scans end -/

theorem scanTo_spec {stop : UInt8 → Bool} (hstop : stop 0 = true) {text rest : List UInt8} (i : Nat) :
    Ends (fun _ => False) (scanTo stop (text ++ 0 :: rest) i) fun j => i ≤ j ∧ j ≤ i + text.length := by
  induction text generalizing i with
  | nil =>
    rw [List.nil_append, scanTo, if_pos hstop]
    exact ⟨Nat.le_refl _, Nat.le_refl _⟩
  | cons c text ih =>
    rw [List.cons_append, scanTo, List.length_cons]
    split
    · exact ⟨Nat.le_refl _, by omega⟩
    · exact (ih (i + 1)).imp fun j hj => by omega

theorem scanTo_isEnd {text rest : List UInt8} (hne : ∀ c ∈ text, c ≠ 0) (i : Nat) :
    scanTo isEnd (text ++ 0 :: rest) i = .ok (i + text.length) := by
  induction text generalizing i with
  | nil => rfl
  | cons c text ih =>
    have hc : ¬isEnd c = true := by simpa [isEnd] using hne c List.mem_cons_self
    rw [List.cons_append, scanTo, if_neg hc, ih (fun c hc => hne c (List.mem_cons_of_mem _ hc)), List.length_cons]
    congr 1
    omega

theorem lineOffsetFrom_spec {text rest : List UInt8} {index i offset : Nat} (hoffset : offset ≤ i) :
    Ends (fun _ => False) (lineOffsetFrom (text ++ 0 :: rest) index i offset) fun o => o ≤ i + index := by
  induction text generalizing index i offset with
  | nil =>
    rw [List.nil_append, lineOffsetFrom, if_pos rfl]
    show offset ≤ _
    omega
  | cons c text ih =>
    rw [List.cons_append, lineOffsetFrom]
    split
    · show offset ≤ _
      omega
    · split
      · show offset ≤ _
        omega
      · refine (ih ?_).imp fun o ho => by omega
        split <;> omega

section
variable {buffer : Buffer} {text rest : List UInt8} (h : Holds buffer text rest)

include h

theorem Holds.strlen_eq : strlen buffer = .ok text.length := by
  rw [strlen, h.bytes_eq, scanTo_isEnd h.text_ne, Nat.zero_add]

theorem Holds.getLineOffset_spec (index : Nat) :
    Ends (fun _ => False) (getLineOffset index buffer) fun offset => offset ≤ index := by
  rw [getLineOffset, h.bytes_eq]
  exact (lineOffsetFrom_spec (Nat.le_refl 0)).imp fun o ho => by omega

theorem Holds.scanTo_drop {index : Nat} (hi : index ≤ text.length) :
    Ends (fun _ => False) (scanTo isLineEnd (buffer.bytes.drop index) index) fun j =>
      index ≤ j ∧ j ≤ text.length := by
  rw [h.drop_eq hi]
  refine (scanTo_spec rfl index).imp fun j hj => ?_
  rw [List.length_drop] at hj
  omega

theorem Holds.getLineLength_spec {index : Nat} (hi : index ≤ text.length) :
    Ends (fun _ => False) (getLineLength index buffer) fun n => index + n ≤ text.length := by
  rw [getLineLength]
  refine (h.scanTo_drop hi).bind fun j hj => ?_
  show index + (j - index) ≤ _
  omega

/-- The cursor stays in the text a line further down. -/
theorem Holds.getNextLine_spec {index : Nat} (hi : index ≤ text.length) :
    Ends (fun _ => False) (getNextLine index buffer) fun j => j ≤ text.length := by
  rw [getNextLine, h.read_eq hi, ok_bind]
  split
  · exact hi
  · refine (h.getLineOffset_spec index).bind fun offset _ => ?_
    refine (h.scanTo_drop hi).bind fun j hj => ?_
    rw [h.read_eq hj.2, ok_bind]
    split
    · exact hj.2
    · next hne =>
      have hlt : j < text.length := by
        refine Nat.lt_of_le_of_ne hj.2 fun hend => hne ?_
        rw [hend, List.getD_eq_getElem?_getD, List.getElem?_eq_none (Nat.le_refl _), Option.getD_none]
      refine (h.getLineLength_spec (show j + 1 ≤ text.length by omega)).bind fun n hn => ?_
      show j + 1 + _ ≤ _
      split <;> omega

/-- The cursor stays in the text a line further up. -/
theorem Holds.getPrevLine_spec {index : Nat} (hi : index ≤ text.length) :
    Ends (fun _ => False) (getPrevLine index buffer) fun j => j ≤ text.length := by
  rw [getPrevLine]
  refine (h.getLineOffset_spec index).bind fun offset hoffset => ?_
  dsimp only
  split
  · refine (h.getLineOffset_spec (offset - 1)).bind fun prev hprev => ?_
    refine (h.getLineLength_spec (show prev ≤ text.length by omega)).bind fun n hn => ?_
    show prev + _ ≤ _
    split <;> omega
  · show offset ≤ _
    omega

end

/-! ## What the moves leave -/

theorem Buffer.read_append {buffer : Buffer} {front back : List UInt8} {c : UInt8}
    (h : buffer.bytes = front ++ c :: back) : buffer.read front.length = .ok c := by
  rw [Buffer.read, h, List.getElem?_append_right (Nat.le_refl _), Nat.sub_self, List.getElem?_cons_zero]

theorem Buffer.write_append {buffer : Buffer} {front back : List UInt8} {c : UInt8}
    (h : buffer.bytes = front ++ c :: back) (d : UInt8) :
    ∃ buffer', buffer.write front.length d = .ok buffer' ∧ buffer'.bytes = front ++ d :: back := by
  have hlt : front.length < editorMaxBufferSize := by
    rw [← buffer.size, h, List.length_append, List.length_cons]
    omega
  refine ⟨_, by rw [Buffer.write, if_pos hlt], ?_⟩
  show buffer.bytes.set _ _ = _
  rw [h, List.set_append_right _ _ (Nat.le_refl _), Nat.sub_self, List.set_cons_zero]

/-- One turn of the loop of an insertion: a byte is written over the one behind it. -/
theorem shiftUp_turn {buffer : Buffer} {front back : List UInt8} {c d : UInt8}
    (h : buffer.bytes = front ++ c :: d :: back) (cursorOffset : Nat) :
    ∃ buffer', buffer'.bytes = front ++ c :: c :: back ∧
      shiftUp cursorOffset front.length buffer =
        if front.length = cursorOffset then .ok buffer'
        else
          match front.length with
          | 0 => .error .outside
          | i + 1 => shiftUp cursorOffset i buffer' := by
  have hsplit : buffer.bytes = (front ++ [c]) ++ d :: back := by rw [h, List.append_assoc, List.singleton_append]
  obtain ⟨buffer', hwrite, hbytes⟩ := Buffer.write_append hsplit c
  refine ⟨buffer', by rw [hbytes, List.append_assoc, List.singleton_append], ?_⟩
  have hlen : (front ++ [c]).length = front.length + 1 := by rw [List.length_append, List.length_singleton]
  rw [hlen] at hwrite
  rw [shiftUp, Buffer.read_append h, ok_bind, hwrite, ok_bind]

/-- The bytes from the cursor on move up by one, over the byte behind them. -/
theorem shiftUp_eq {front : List UInt8} : ∀ (moved : List UInt8) {buffer : Buffer} {c d : UInt8}
    {back : List UInt8}, buffer.bytes = front ++ moved ++ c :: d :: back →
    ∃ buffer' first, shiftUp front.length (front.length + moved.length) buffer = .ok buffer' ∧
      buffer'.bytes = front ++ first :: (moved ++ c :: back) := by
  intro moved
  -- from the last byte down: the list is taken apart at its end
  induction moved using List.reverseRecOn with
  | nil =>
    intro buffer c d back h
    rw [List.append_nil] at h
    obtain ⟨buffer', hbytes, hturn⟩ := shiftUp_turn h front.length
    rw [if_pos rfl] at hturn
    exact ⟨buffer', c, hturn, hbytes⟩
  | append_singleton moved b ih =>
    intro buffer c d back h
    obtain ⟨buffer₁, hbytes, hturn⟩ := shiftUp_turn h front.length
    have hlen : (front ++ (moved ++ [b])).length = front.length + moved.length + 1 := by
      simp only [List.length_append, List.length_singleton]
      omega
    rw [hlen, if_neg (by omega)] at hturn
    have hbytes₁ : buffer₁.bytes = front ++ moved ++ b :: c :: (c :: back) := by
      rw [hbytes]
      simp
    obtain ⟨buffer', first, hshift, hbytes'⟩ := ih hbytes₁
    refine ⟨buffer', first, ?_, by rw [hbytes']; simp⟩
    rw [List.length_append, List.length_singleton, ← Nat.add_assoc, hturn]
    exact hshift

/-- **Insertion** at the cursor: the byte behind the NUL is all that is lost. -/
theorem Holds.insertAt_eq {buffer : Buffer} {before after rest : List UInt8} {d c : UInt8}
    (h : Holds buffer (before ++ after) (d :: rest)) (hc : c ≠ 0) :
    ∃ buffer', insertAt before.length (before ++ after).length c buffer = .ok buffer' ∧
      Holds buffer' (before ++ c :: after) rest := by
  have hbytes : buffer.bytes = before ++ after ++ 0 :: d :: rest := h.bytes_eq
  obtain ⟨buffer₁, first, hshift, hbytes₁⟩ := shiftUp_eq after hbytes
  obtain ⟨buffer', hwrite, hbytes'⟩ := Buffer.write_append hbytes₁ c
  refine ⟨buffer', ?_, ⟨by rw [hbytes']; simp, ?_⟩⟩
  · rw [insertAt, List.length_append, hshift, ok_bind, hwrite]
  · intro b hb
    rcases List.mem_append.mp hb with hb | hb
    · exact h.text_ne b (List.mem_append_left _ hb)
    · rcases List.mem_cons.mp hb with rfl | hb
      · exact hc
      · exact h.text_ne b (List.mem_append_right _ hb)

/-- One turn of the loop of a deletion: a byte is written over the one before it. -/
theorem shiftDown_turn {buffer : Buffer} {front back : List UInt8} {c d : UInt8}
    (h : buffer.bytes = front ++ d :: c :: back) (n : Nat) :
    ∃ buffer', buffer'.bytes = front ++ c :: c :: back ∧
      shiftDown (n + 1) front.length buffer =
        if c = 0 then .ok buffer' else shiftDown n (front.length + 1) buffer' := by
  have hsplit : buffer.bytes = (front ++ [d]) ++ c :: back := by rw [h, List.append_assoc, List.singleton_append]
  have hread := Buffer.read_append hsplit
  rw [List.length_append, List.length_singleton] at hread
  obtain ⟨buffer', hwrite, hbytes⟩ := Buffer.write_append h c
  exact ⟨buffer', hbytes, by rw [shiftDown, hread, ok_bind, hwrite, ok_bind]⟩

/-- The bytes behind the first one move down by one, with their NUL. -/
theorem shiftDown_eq {after : List UInt8} (hne : ∀ c ∈ after, c ≠ 0) : ∀ {front : List UInt8} {buffer : Buffer}
    {d : UInt8} {rest : List UInt8}, buffer.bytes = front ++ d :: (after ++ 0 :: rest) →
    ∃ buffer', shiftDown (after.length + 1) front.length buffer = .ok buffer' ∧
      buffer'.bytes = front ++ after ++ 0 :: 0 :: rest := by
  induction after with
  | nil =>
    intro front buffer d rest h
    obtain ⟨buffer', hbytes, hturn⟩ := shiftDown_turn h 0
    exact ⟨buffer', by rw [List.length_nil, hturn, if_pos rfl], by rw [hbytes, List.append_nil]⟩
  | cons c after ih =>
    intro front buffer d rest h
    obtain ⟨buffer₁, hbytes, hturn⟩ := shiftDown_turn h (after.length + 1)
    have hbytes₁ : buffer₁.bytes = (front ++ [c]) ++ c :: (after ++ 0 :: rest) := by
      rw [hbytes, List.append_assoc, List.singleton_append]
      rfl
    obtain ⟨buffer', hshift, hbytes'⟩ := ih (fun b hb => hne b (List.mem_cons_of_mem _ hb)) hbytes₁
    refine ⟨buffer', ?_, by rw [hbytes']; simp⟩
    rw [List.length_append, List.length_singleton] at hshift
    rw [List.length_cons, hturn, if_neg (hne c List.mem_cons_self), hshift]

/-- **Deletion** of the byte under the cursor; another NUL is left behind the first. -/
theorem Holds.deleteAt_eq {buffer : Buffer} {before after rest : List UInt8} {c : UInt8}
    (h : Holds buffer (before ++ c :: after) rest) :
    ∃ buffer', deleteAt before.length (before ++ c :: after).length buffer = .ok buffer' ∧
      Holds buffer' (before ++ after) (0 :: rest) := by
  have hafter : ∀ b ∈ after, b ≠ 0 := fun b hb =>
    h.text_ne b (List.mem_append_right _ (List.mem_cons_of_mem _ hb))
  have hbytes : buffer.bytes = before ++ c :: (after ++ 0 :: rest) := by
    rw [h.bytes_eq]
    simp
  obtain ⟨buffer', hshift, hbytes'⟩ := shiftDown_eq hafter hbytes
  refine ⟨buffer', ?_, ⟨hbytes', ?_⟩⟩
  · rw [deleteAt, List.length_append, List.length_cons, Nat.add_sub_cancel_left, hshift]
  · intro b hb
    rcases List.mem_append.mp hb with hb | hb
    · exact h.text_ne b (List.mem_append_left _ hb)
    · exact hafter b hb

/-- With the cursor on the NUL there is nothing to delete. -/
theorem deleteAt_end (n : Nat) (buffer : Buffer) : deleteAt n n buffer = .ok buffer := by
  rw [deleteAt, Nat.sub_self, shiftDown]

end Limine.Editor
