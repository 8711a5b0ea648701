import Limine.Editor.Draw
import Limine.Menu.Loop

/-!
# The editor's loop

`config_entry_editor` from one wait for a key to the next.  At each of them the buffer holds a text
with the cursor in it; an insertion or a deletion is one of the text split at the cursor, and every
other input moves at most the cursor.
-/

namespace Limine.Editor

open Limine.Lib Limine.Menu

def getcharCursorLeft : Int := -10
def getcharDelete : Int := -14
def getcharF10 : Int := -19
def getcharEscape : Int := -20
def backspace : Int := 8

/-- The statics that outlive the editor. -/
structure Statics where
  bootingFromEditor : Bool
  savedOrigEntry : CString
  savedTitle : CString
deriving DecidableEq, Repr

/-- The editor while it waits. -/
structure Prompt where
  buffer : Buffer
  cursorOffset : Nat
  drawn : Drawn

/-- What the wait ends with, 0 at its timeout, and what `mouse_get_state` would say. -/
structure Input where
  c : Int
  mouse : MouseState

/-- Another wait, or what the editor returns: the buffer, or `NULL`. -/
inductive Outcome
  | prompt (p : Prompt)
  | boot (buffer : Buffer) (statics : Statics)
  | discard (statics : Statics)

/-- Characters that are inserted: ASCII, the upper half of Latin-1, newlines and tabs. -/
def isInserted (c : Int) : Bool := 32 ≤ c && c ≤ 126 || 160 ≤ c && c ≤ 255 || c = 10 || c = 9

/-- `(char)` -/
def charOf (c : Int) : UInt8 := UInt8.ofNat c.toNat

/-- `saved_title` after a copy of the title. -/
def savedTitleOf (title : CString) : CString :=
  if 256 ≤ title.length then title.take (256 - 4) ++ [46, 46, 46] else title

/-- A wheel loop of `n` turns. -/
def turns (line : Nat → Buffer → Except Fault Nat) (buffer : Buffer) : Nat → Nat → Except Fault Nat
  | 0, cursorOffset => .ok cursorOffset
  | n + 1, cursorOffset => do
    let cursorOffset ← line cursorOffset buffer
    turns line buffer n cursorOffset

section
variable (t : Screen) (s : Settings) (statics : Statics) (fuel : Nat)

/-- `goto refresh` -/
def toRefresh (buffer : Buffer) (cursorOffset windowRow : Nat) : Except Fault Outcome := do
  let drawn ← refresh t s buffer cursorOffset fuel windowRow
  .ok (.prompt ⟨buffer, cursorOffset, drawn⟩)

/-- `GETCHAR_MOUSE` -/
def mouseInput (p : Prompt) (mouse : MouseState) : Except Fault Outcome :=
  if mouse.wheel ≠ 0 then do
    let cursorOffset ← turns getPrevLine p.buffer (-mouse.wheel).toNat p.cursorOffset
    let cursorOffset ← turns getNextLine p.buffer mouse.wheel.toNat cursorOffset
    toRefresh t s fuel p.buffer cursorOffset p.drawn.windowRow
  else if mouse.click then do
    match ← editorCellToOffset t p.drawn.cells mouse.clickX mouse.clickY with
    | some offset => toRefresh t s fuel p.buffer offset p.drawn.windowRow
    | none => .ok (.prompt p)
  else .ok (.prompt p)

/-- The keys that move the cursor: where to. -/
def movedCursor (p : Prompt) (bufferLen : Nat) (c : Int) : Except Fault Nat :=
  if c = getcharCursorDown then getNextLine p.cursorOffset p.buffer
  else if c = getcharCursorUp then getPrevLine p.cursorOffset p.buffer
  else if c = getcharCursorLeft then .ok (p.cursorOffset - 1)
  else if c = getcharCursorRight then
    .ok (if p.cursorOffset < bufferLen then p.cursorOffset + 1 else p.cursorOffset)
  else if c = getcharHome then do
    let offset ← getLineOffset p.cursorOffset p.buffer
    .ok (p.cursorOffset - (p.cursorOffset - offset))
  else if c = getcharEnd then do
    let length ← getLineLength p.cursorOffset p.buffer
    .ok (p.cursorOffset + length)
  else .ok p.cursorOffset

/-- The `switch` on a key. -/
def handleKey (p : Prompt) (c : Int) : Except Fault Outcome := do
  let bufferLen ← strlen p.buffer
  if c = backspace then
    if p.cursorOffset ≠ 0 then do
      let buffer ← deleteAt (p.cursorOffset - 1) bufferLen p.buffer
      toRefresh t s fuel buffer (p.cursorOffset - 1) p.drawn.windowRow
    else toRefresh t s fuel p.buffer p.cursorOffset p.drawn.windowRow
  else if c = getcharDelete then do
    let buffer ← deleteAt p.cursorOffset bufferLen p.buffer
    toRefresh t s fuel buffer p.cursorOffset p.drawn.windowRow
  else if c = getcharF10 then
    .ok (.boot p.buffer ⟨true, p.buffer.bytes.take bufferLen, savedTitleOf s.title⟩)
  else if c = getcharEscape then .ok (.discard { statics with bootingFromEditor := false })
  else if isInserted c ∧ bufferLen < editorMaxBufferSize - 1 then do
    let buffer ← insertAt p.cursorOffset bufferLen (charOf c) p.buffer
    toRefresh t s fuel buffer (p.cursorOffset + 1) p.drawn.windowRow
  else do
    let cursorOffset ← movedCursor p bufferLen c
    toRefresh t s fuel p.buffer cursorOffset p.drawn.windowRow

/-- From one wait to the next. -/
def step (p : Prompt) (input : Input) : Except Fault Outcome :=
  if input.c = getcharMouse then mouseInput t s fuel p input.mouse
  else if input.c = 0 then .ok (.prompt p)
  else handleKey t s statics fuel p input.c

/-- Input after input, as long as the editor waits. -/
def run : List Input → Prompt → Except Fault Outcome
  | [], p => .ok (.prompt p)
  | input :: inputs, p => do
    match ← step t s statics fuel p input with
    | .prompt p => run inputs p
    | outcome => .ok outcome

/-- The text that is edited: an entry without its leading newlines. -/
def entryText (orig : CString) : CString :=
  (Fs.cString (if statics.bootingFromEditor then statics.savedOrigEntry else orig)).dropWhile (· = newline)

/-- `config_entry_editor` up to the first wait; `fresh` is the allocation as it was. -/
def editorStart (orig : CString) (fresh : Buffer) : Except Fault Prompt :=
  let entry := entryText statics orig
  if h : editorMaxBufferSize ≤ entry.length then .error (.panic "Entry is too big to be edited.")
  else do
    let buffer : Buffer := ⟨entry ++ 0 :: fresh.bytes.drop (entry.length + 1), by
      rw [List.length_append, List.length_cons, List.length_drop, fresh.size]
      omega⟩
    let drawn ← refresh t s buffer 0 fuel 0
    .ok ⟨buffer, 0, drawn⟩

/-- The settings of a session; a title that was saved goes with the entry that was. -/
def sessionSettings (title : CString) : Settings :=
  { s with title := if statics.bootingFromEditor then statics.savedTitle else title }

end

/-! ## What an input does to the text -/

/-- The text and what lies behind its NUL after an input, from a text split at the cursor, and where
the cursor is then. -/
def Edited (before after rest : List UInt8) (c : Int) (text rest' : List UInt8) (cursorOffset : Nat) : Prop :=
  if c = backspace then
    text = before.dropLast ++ after ∧ cursorOffset = before.dropLast.length ∧
      rest' = if before = [] then rest else 0 :: rest
  else if c = getcharDelete then
    text = before ++ after.tail ∧ cursorOffset = before.length ∧
      rest' = if after = [] then rest else 0 :: rest
  else if isInserted c then
    if (before ++ after).length < editorMaxBufferSize - 1 then
      text = before ++ charOf c :: after ∧ cursorOffset = before.length + 1 ∧ rest' = rest.tail
    else text = before ++ after ∧ cursorOffset = before.length ∧ rest' = rest
  else text = before ++ after ∧ cursorOffset ≤ text.length ∧ rest' = rest

/-- What holds while the editor waits. -/
structure PromptOk (t : Screen) (p : Prompt) (text rest : List UInt8) : Prop where
  holds : Holds p.buffer text rest
  cursor_le : p.cursorOffset ≤ text.length
  cells : CellsOk t text.length p.drawn.cells

/-- What is asked of a step: the next wait, with the text edited as the input says, or the end of
the session. -/
def StepOk (t : Screen) (p : Prompt) (text rest : List UInt8) (input : Input) : Outcome → Prop
  | .prompt p' => ∃ text' rest', PromptOk t p' text' rest' ∧
      Edited (text.take p.cursorOffset) (text.drop p.cursorOffset) rest input.c text' rest' p'.cursorOffset
  | .boot buffer statics => input.c = getcharF10 ∧ buffer = p.buffer ∧ statics.savedOrigEntry = text
  | .discard _ => input.c = getcharEscape

section
variable {t : Screen} {s : Settings} {statics : Statics} {p : Prompt} {text rest : List UInt8}

theorem toRefresh_spec {buffer : Buffer} {cursorOffset : Nat} (h : Holds buffer text rest)
    (hcursor : cursorOffset ≤ text.length) (fuel windowRow : Nat) :
    Ends (fun _ => False) (toRefresh t s (fuel + 2) buffer cursorOffset windowRow) fun outcome =>
      ∃ p', outcome = .prompt p' ∧ PromptOk t p' text rest ∧ p'.cursorOffset = cursorOffset := by
  rw [toRefresh]
  exact (refresh_spec t s h hcursor fuel).bind fun drawn hdrawn => Ends.ok ⟨_, rfl, ⟨h, hcursor, hdrawn⟩, rfl⟩

theorem turns_spec {line : Nat → Buffer → Except Fault Nat} {buffer : Buffer} {len : Nat}
    (hline : ∀ i ≤ len, Ends (fun _ => False) (line i buffer) fun j => j ≤ len) (n : Nat) :
    ∀ {i : Nat}, i ≤ len → Ends (fun _ => False) (turns line buffer n i) fun j => j ≤ len := by
  induction n with
  | zero => exact fun hi => hi
  | succ n ih =>
    intro i hi
    rw [turns]
    exact (hline i hi).bind fun j hj => ih hj

/-- An input that is no edit. -/
theorem edited_of_moved {c : Int} {cursorOffset cursorOffset' : Nat} (hb : c ≠ backspace) (hd : c ≠ getcharDelete)
    (hi : isInserted c = false) (hcursor : cursorOffset' ≤ text.length) :
    Edited (text.take cursorOffset) (text.drop cursorOffset) rest c text rest cursorOffset' := by
  rw [Edited, if_neg hb, if_neg hd, if_neg (by simp [hi]), List.take_append_drop]
  exact ⟨rfl, hcursor, rfl⟩

theorem stepOk_of_moved (h : PromptOk t p text rest) {input : Input} (hb : input.c ≠ backspace)
    (hd : input.c ≠ getcharDelete) (hi : isInserted input.c = false) {cursorOffset : Nat}
    (hcursor : cursorOffset ≤ text.length) (fuel windowRow : Nat) :
    Ends (fun _ => False) (toRefresh t s (fuel + 2) p.buffer cursorOffset windowRow)
      (StepOk t p text rest input) := by
  refine (toRefresh_spec h.holds hcursor fuel windowRow).imp fun outcome ho => ?_
  obtain ⟨p', rfl, hp', hc⟩ := ho
  exact ⟨text, rest, hp', edited_of_moved hb hd hi (by rw [hc]; exact hcursor)⟩

theorem mouseInput_spec (h : PromptOk t p text rest) {input : Input} (hc : input.c = getcharMouse) (fuel : Nat) :
    Ends (fun _ => False) (mouseInput t s (fuel + 2) p input.mouse) (StepOk t p text rest input) := by
  have hb : input.c ≠ backspace := by
    rw [hc]
    decide
  have hd : input.c ≠ getcharDelete := by
    rw [hc]
    decide
  have hi : isInserted input.c = false := by
    rw [hc]
    decide
  have hstay : StepOk t p text rest input (.prompt p) :=
    ⟨text, rest, h, edited_of_moved hb hd hi h.cursor_le⟩
  rw [mouseInput]
  split
  · refine (turns_spec (fun i hi => h.holds.getPrevLine_spec hi) _ h.cursor_le).bind fun i hi' => ?_
    refine (turns_spec (fun i hi => h.holds.getNextLine_spec hi) _ hi').bind fun j hj => ?_
    exact stepOk_of_moved h hb hd hi hj fuel _
  · split
    · refine (editorCellToOffset_spec t h.cells _ _).bind fun found hfound => ?_
      cases found with
      | none => exact hstay
      | some offset => exact stepOk_of_moved h hb hd hi (hfound offset rfl) fuel _
    · exact hstay

theorem movedCursor_spec (h : PromptOk t p text rest) (c : Int) :
    Ends (fun _ => False) (movedCursor p text.length c) fun j => j ≤ text.length := by
  have hcursor := h.cursor_le
  rw [movedCursor]
  split
  · exact h.holds.getNextLine_spec hcursor
  split
  · exact h.holds.getPrevLine_spec hcursor
  split
  · show _ ≤ _
    omega
  split
  · show (if p.cursorOffset < text.length then p.cursorOffset + 1 else p.cursorOffset) ≤ text.length
    split <;> omega
  split
  · refine (h.holds.getLineOffset_spec _).bind fun offset _ => ?_
    show _ ≤ _
    omega
  split
  · refine (h.holds.getLineLength_spec hcursor).bind fun n hn => ?_
    exact hn
  · exact hcursor

/-- A backspace deletes the byte before the cursor. -/
theorem backspace_spec (h : PromptOk t p text rest) {input : Input} (hc : input.c = backspace) (fuel : Nat) :
    Ends (fun _ => False) (handleKey t s statics (fuel + 2) p input.c) (StepOk t p text rest input) := by
  have hcursor := h.cursor_le
  rw [handleKey, h.holds.strlen_eq, ok_bind, if_pos hc]
  split
  · next h0 =>
    obtain ⟨before, b, hbefore⟩ : ∃ before b, text.take p.cursorOffset = before ++ [b] := by
      refine ⟨(text.take p.cursorOffset).dropLast, _, (List.dropLast_append_getLast ?_).symm⟩
      intro hnil
      have hlen := congrArg List.length hnil
      rw [List.length_take, List.length_nil] at hlen
      omega
    have hlen : before.length + 1 = p.cursorOffset := by
      have hlen := congrArg List.length hbefore
      rw [List.length_take, List.length_append, List.length_singleton] at hlen
      omega
    have htext : text = before ++ b :: text.drop p.cursorOffset := by
      rw [← List.singleton_append, ← List.append_assoc, ← hbefore, List.take_append_drop]
    have hholds := h.holds
    rw [htext] at hholds
    obtain ⟨buffer, hdelete, hholds'⟩ := hholds.deleteAt_eq
    rw [← htext, show before.length = p.cursorOffset - 1 by omega] at hdelete
    rw [hdelete, ok_bind]
    refine (toRefresh_spec hholds' (by rw [List.length_append]; omega) fuel _).imp fun outcome ho => ?_
    obtain ⟨p', rfl, hp', hcur⟩ := ho
    refine ⟨_, _, hp', ?_⟩
    rw [Edited, if_pos hc, hbefore, List.dropLast_concat, if_neg (by simp), hcur]
    exact ⟨rfl, by omega, rfl⟩
  · next h0 =>
    have h0' : p.cursorOffset = 0 := by omega
    refine (toRefresh_spec h.holds hcursor fuel _).imp fun outcome ho => ?_
    obtain ⟨p', rfl, hp', hcur⟩ := ho
    refine ⟨text, rest, hp', ?_⟩
    rw [Edited, if_pos hc, hcur, h0', List.take_zero, List.drop_zero]
    exact ⟨rfl, rfl, rfl⟩

/-- A delete takes the byte under the cursor. -/
theorem delete_spec (h : PromptOk t p text rest) {input : Input} (hc : input.c = getcharDelete) (fuel : Nat) :
    Ends (fun _ => False) (handleKey t s statics (fuel + 2) p input.c) (StepOk t p text rest input) := by
  have hcursor := h.cursor_le
  have hb : input.c ≠ backspace := by
    rw [hc]
    decide
  have hlen : (text.take p.cursorOffset).length = p.cursorOffset := List.length_take_of_le hcursor
  have htext : text = text.take p.cursorOffset ++ text.drop p.cursorOffset := (List.take_append_drop _ _).symm
  rw [handleKey, h.holds.strlen_eq, ok_bind, if_neg hb, if_pos hc]
  cases hafter : text.drop p.cursorOffset with
  | nil =>
    have hend : p.cursorOffset = text.length := by
      have := List.drop_eq_nil_iff.mp hafter
      omega
    rw [hend, deleteAt_end, ok_bind]
    refine (toRefresh_spec h.holds (Nat.le_refl _) fuel _).imp fun outcome ho => ?_
    obtain ⟨p', rfl, hp', hcur⟩ := ho
    refine ⟨text, rest, hp', ?_⟩
    rw [Edited, if_neg hb, if_pos hc, hcur, hafter, hend, List.take_length]
    exact ⟨by simp, rfl, rfl⟩
  | cons b after =>
    rw [hafter] at htext
    have hholds := h.holds
    rw [htext] at hholds
    obtain ⟨buffer, hdelete, hholds'⟩ := hholds.deleteAt_eq
    rw [← htext, hlen] at hdelete
    rw [hdelete, ok_bind]
    refine (toRefresh_spec hholds' (by rw [List.length_append]; omega) fuel _).imp fun outcome ho => ?_
    obtain ⟨p', rfl, hp', hcur⟩ := ho
    refine ⟨_, _, hp', ?_⟩
    rw [Edited, if_neg hb, if_pos hc, hcur, hafter, if_neg (by simp), hlen]
    exact ⟨rfl, rfl, rfl⟩

theorem isInserted_bounds {c : Int} (h : isInserted c = true) : 9 ≤ c ∧ c ≤ 255 := by
  simp only [isInserted, Bool.or_eq_true, Bool.and_eq_true, decide_eq_true_eq] at h
  omega

theorem charOf_ne_zero {c : Int} (h : isInserted c = true) : charOf c ≠ 0 := by
  have hc := isInserted_bounds h
  intro h0
  have hnat : (charOf c).toNat = 0 := by rw [h0, UInt8.toNat_zero]
  rw [charOf, UInt8.toNat_ofNat'] at hnat
  omega

/-- A character goes in at the cursor, if there is room. -/
theorem insert_spec (h : PromptOk t p text rest) {input : Input} (hi : isInserted input.c = true) (fuel : Nat) :
    Ends (fun _ => False) (handleKey t s statics (fuel + 2) p input.c) (StepOk t p text rest input) := by
  have hcursor := h.cursor_le
  have hlen : (text.take p.cursorOffset).length = p.cursorOffset := List.length_take_of_le hcursor
  have htext : text = text.take p.cursorOffset ++ text.drop p.cursorOffset := (List.take_append_drop _ _).symm
  have hroom : (text.take p.cursorOffset ++ text.drop p.cursorOffset).length = text.length := by rw [← htext]
  have hc := isInserted_bounds hi
  have hne : ∀ key : Int, key < 0 → input.c ≠ key := fun key hkey => by omega
  have hb : input.c ≠ backspace := by
    show input.c ≠ 8
    omega
  have hd : input.c ≠ getcharDelete := hne _ (by decide)
  rw [handleKey, h.holds.strlen_eq, ok_bind, if_neg hb, if_neg hd, if_neg (hne _ (by decide)),
    if_neg (hne _ (by decide)), hi]
  split
  · next hfits =>
    obtain ⟨d, rest', hrest⟩ : ∃ d rest', rest = d :: rest' := by
      cases hrest : rest with
      | cons d rest' => exact ⟨d, rest', rfl⟩
      | nil =>
        have hsize := h.holds.length_eq
        rw [hrest, List.length_nil] at hsize
        omega
    have hholds := h.holds
    rw [htext, hrest] at hholds
    obtain ⟨buffer, hinsert, hholds'⟩ := hholds.insertAt_eq (charOf_ne_zero hi)
    rw [hroom, hlen] at hinsert
    rw [hinsert, ok_bind]
    refine (toRefresh_spec hholds' (by rw [List.length_append, List.length_cons]; omega) fuel _).imp
      fun outcome ho => ?_
    obtain ⟨p', rfl, hp', hcur⟩ := ho
    refine ⟨_, _, hp', ?_⟩
    rw [Edited, if_neg hb, if_neg hd, if_pos hi, if_pos (by rw [hroom]; exact hfits.2), hcur, hlen, hrest]
    exact ⟨rfl, rfl, rfl⟩
  · next hfull =>
    have hstay : movedCursor p text.length input.c = .ok p.cursorOffset := by
      rw [movedCursor, if_neg (hne _ (by decide)), if_neg (hne _ (by decide)), if_neg (hne _ (by decide)),
        if_neg (hne _ (by decide)), if_neg (hne _ (by decide)), if_neg (hne _ (by decide))]
    rw [hstay, ok_bind]
    refine (toRefresh_spec h.holds hcursor fuel _).imp fun outcome ho => ?_
    obtain ⟨p', rfl, hp', hcur⟩ := ho
    refine ⟨text, rest, hp', ?_⟩
    rw [Edited, if_neg hb, if_neg hd, if_pos hi, if_neg (by rw [hroom]; exact fun hlt => hfull ⟨rfl, hlt⟩), hcur,
      hlen, List.take_append_drop]
    exact ⟨rfl, rfl, rfl⟩

theorem handleKey_spec (h : PromptOk t p text rest) (input : Input) (fuel : Nat) :
    Ends (fun _ => False) (handleKey t s statics (fuel + 2) p input.c) (StepOk t p text rest input) := by
  by_cases hb : input.c = backspace
  · exact backspace_spec h hb fuel
  by_cases hd : input.c = getcharDelete
  · exact delete_spec h hd fuel
  cases hi : isInserted input.c with
  | true => exact insert_spec h hi fuel
  | false =>
    rw [handleKey, h.holds.strlen_eq, ok_bind, if_neg hb, if_neg hd]
    split
    · next hf =>
      refine ⟨hf, rfl, ?_⟩
      show p.buffer.bytes.take text.length = text
      rw [h.holds.bytes_eq, List.take_left]
    · split
      · next he => exact he
      · rw [hi, if_neg (by simp)]
        exact (movedCursor_spec h input.c).bind fun j hj => stepOk_of_moved h hb hd hi hj fuel _

/-- **One step** of the editor. -/
theorem step_spec (h : PromptOk t p text rest) (input : Input) (fuel : Nat) :
    Ends (fun _ => False) (step t s statics (fuel + 2) p input) (StepOk t p text rest input) := by
  rw [step]
  split
  · next hc => exact mouseInput_spec h hc fuel
  · split
    · next h0 =>
      have hb : input.c ≠ backspace := by
        rw [h0]
        decide
      have hd : input.c ≠ getcharDelete := by
        rw [h0]
        decide
      have hi : isInserted input.c = false := by
        rw [h0]
        decide
      exact ⟨text, rest, h, edited_of_moved hb hd hi h.cursor_le⟩
    · exact handleKey_spec h input fuel

/-- The editor's invariant: a text in the buffer, with the cursor in it. -/
theorem run_spec (inputs : List Input) (fuel : Nat) : ∀ {p : Prompt} {text rest : List UInt8}, PromptOk t p text rest →
    Ends (fun _ => False) (run t s statics (fuel + 2) inputs p) fun outcome =>
      ∀ p', outcome = .prompt p' → ∃ text' rest', PromptOk t p' text' rest' := by
  induction inputs with
  | nil =>
    intro p text rest h p' hp'
    cases hp'
    exact ⟨text, rest, h⟩
  | cons input inputs ih =>
    intro p text rest h
    rw [run]
    refine (step_spec h input fuel).bind fun outcome ho => ?_
    cases outcome with
    | prompt p' =>
      obtain ⟨text', rest', h', -⟩ := ho
      exact ih h'
    | boot buffer statics' =>
      intro p' hp'
      cases hp'
    | discard statics' =>
      intro p' hp'
      cases hp'

end

theorem editorStart_spec (t : Screen) (s : Settings) (statics : Statics) (fuel : Nat) (orig : CString)
    (fresh : Buffer) :
    Ends (fun e => e = .panic "Entry is too big to be edited." ∧
        editorMaxBufferSize ≤ (entryText statics orig).length)
      (editorStart t s statics (fuel + 2) orig fresh) fun p =>
        (∃ rest, PromptOk t p (entryText statics orig) rest) ∧ p.cursorOffset = 0 := by
  rw [editorStart]
  dsimp only
  split
  · next hbig => exact ⟨rfl, hbig⟩
  · next hfits =>
    have hne : ∀ c ∈ entryText statics orig, c ≠ 0 := fun c hc =>
      Fs.cString_ne_zero c ((List.dropWhile_suffix _).subset hc)
    have hholds : Holds ⟨entryText statics orig ++ 0 :: fresh.bytes.drop ((entryText statics orig).length + 1), by
        rw [List.length_append, List.length_cons, List.length_drop, fresh.size]
        omega⟩ (entryText statics orig) (fresh.bytes.drop ((entryText statics orig).length + 1)) := ⟨rfl, hne⟩
    refine ((refresh_spec t s hholds (Nat.zero_le _) fuel).weaken fun e he => he.elim).bind fun drawn hdrawn => ?_
    exact ⟨⟨_, hholds, Nat.zero_le _, hdrawn⟩, rfl⟩

/-- **The editor.**  Unless the entry without its leading newlines is too long, the editor comes to
its first wait with that text; after any inputs it has ended, or it waits again with a text that a
NUL ends in the buffer and the cursor in it, and then whatever input comes next leads to another wait
or ends the editor: an insertion, a backspace and a delete change the text at the cursor and nothing
else, a full buffer takes no insertion, and any other input moves at most the cursor. -/
theorem editor_keeps_text (t : Screen) (s : Settings) (statics : Statics) (fuel : Nat) (title orig : CString)
    (fresh : Buffer) (inputs : List Input) :
    Ends (fun e => e = .panic "Entry is too big to be edited." ∧
        editorMaxBufferSize ≤ (entryText statics orig).length)
      (editorStart t (sessionSettings s statics title) statics (fuel + 2) orig fresh) fun first =>
        (∃ rest, Holds first.buffer (entryText statics orig) rest) ∧ first.cursorOffset = 0 ∧
        Ends (fun _ => False) (run t (sessionSettings s statics title) statics (fuel + 2) inputs first)
          fun outcome => ∀ p, outcome = .prompt p → ∃ text rest, Holds p.buffer text rest ∧
            text.length ≤ editorMaxBufferSize - 1 ∧ p.cursorOffset ≤ text.length ∧
            ∀ input, Ends (fun _ => False) (step t (sessionSettings s statics title) statics (fuel + 2) p input)
              (StepOk t p text rest input) := by
  refine (editorStart_spec t (sessionSettings s statics title) statics fuel orig fresh).imp fun first hfirst => ?_
  obtain ⟨⟨rest, hok⟩, h0⟩ := hfirst
  refine ⟨⟨rest, hok.holds⟩, h0, (run_spec inputs fuel hok).imp fun outcome ho p hp => ?_⟩
  obtain ⟨text, rest, h⟩ := ho p hp
  have hlt := h.holds.length_lt
  exact ⟨text, rest, h.holds, by omega, h.cursor_le, fun input => step_spec h input fuel⟩

end Limine.Editor
