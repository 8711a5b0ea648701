import Limine.Menu.SerialInput
import Limine.Lib.Chunks

/-!
# The keys that are typed on the serial line

The input as what is typed: characters, and control sequences with their parameter bytes, intermediate bytes
and final byte.  `input_sequence` reads up to the first byte that is no digit, which is the final one only of
a sequence that has nothing but digits before it; what is left of any other sequence comes as keys.
-/

namespace Limine.Menu

open Limine.Lib Limine.Editor

/-! ## What is typed -/

/-- `ESC [`, parameter bytes, intermediate bytes and a final byte. -/
structure ControlSequence where
  params : List UInt8
  intermediates : List UInt8
  final : UInt8
  params_range : ∀ b ∈ params, 0x30 ≤ b.toNat ∧ b.toNat ≤ 0x3f
  intermediates_range : ∀ b ∈ intermediates, 0x20 ≤ b.toNat ∧ b.toNat ≤ 0x2f
  final_range : 0x40 ≤ final.toNat ∧ final.toNat ≤ 0x7e

inductive Typed
  | printable (b : UInt8) (h : 0x20 ≤ b.toNat ∧ b.toNat ≤ 0x7e)
  | carriageReturn
  | backspace
  | delete
  | sequence (s : ControlSequence)

namespace ControlSequence

variable (s : ControlSequence)

/-- What follows `ESC [`. -/
def body : List UInt8 := s.params ++ s.intermediates ++ [s.final]

/-- The key it stands for; 0 is none. -/
def key : Int :=
  if s.intermediates ≠ [] then 0
  else if s.params = [] then (letterKey s.final).getD 0
  else if s.final ≠ 126 then 0
  else if s.params = [51] then getcharDelete
  else if s.params = [53] then getcharPgup
  else if s.params = [54] then getcharPgdown
  else if s.params = [50, 49] then getcharF10
  else 0

end ControlSequence

namespace Typed

def bytes : Typed → List UInt8
  | printable b _ => [b]
  | carriageReturn => [13]
  | backspace => [8]
  | delete => [127]
  | sequence s => 27 :: 91 :: s.body

/-- The one key that the reader is to get for it. -/
def key : Typed → Int
  | printable b _ => b.toNat
  | carriageReturn => 10
  | backspace => 8
  | delete => 8
  | sequence s => s.key

end Typed

/-- Everything that is typed, without gaps. -/
def lineOf (typed : List Typed) : SerialLine := (typed.flatMap Typed.bytes).map some

/-! ## What the code makes of a byte -/

theorem letterKey_of_digit {b : UInt8} (h : isDigit b = true) : letterKey b = none := by
  rw [isDigit_iff] at h
  unfold letterKey
  have hne : ∀ c : UInt8, 57 < c.toNat → b ≠ c := by
    rintro c hc rfl
    omega
  rw [if_neg (hne 65 (by decide)), if_neg (hne 66 (by decide)), if_neg (hne 67 (by decide)),
    if_neg (hne 68 (by decide)), if_neg (hne 70 (by decide)), if_neg (hne 72 (by decide))]

theorem inputSequence_digits {digits : List UInt8} (h : ∀ b ∈ digits, isDigit b = true) (line : SerialLine) :
    ∀ val, inputSequence val 0 (digits.map some ++ line) = inputSequence (digits.foldl nextValue val) 0 line := by
  induction digits with
  | nil =>
    intro val
    rfl
  | cons b digits ih =>
    intro val
    have hb := h b List.mem_cons_self
    rw [List.map_cons, List.cons_append, inputSequence, letterKey_of_digit hb]
    simp only [hb, if_true]
    exact ih (fun c hc => h c (List.mem_cons_of_mem b hc)) _

theorem inputSequence_stop {ret : UInt8} (h : isDigit ret = false) (val : Nat) (line : SerialLine) :
    inputSequence val 0 (some ret :: line) = ((letterKey ret).getD (valueKey val), line) := by
  rw [inputSequence]
  cases letterKey ret with
  | some key => rfl
  | none => simp [h]

/-- A byte other than ESC is a key of its own. -/
theorem serialInput_plain {ret : UInt8} (h : ret ≠ 27) (line : SerialLine) :
    serialInput (some ret :: line) = (plainKey ret, line) := by
  rw [serialInput]
  unfold serialInputAgain
  cases line with
  | nil => exact if_neg h
  | cons poll line => exact if_neg h

theorem plainKey_printable {b : UInt8} (h : 0x20 ≤ b.toNat ∧ b.toNat ≤ 0x7e) :
    b ≠ 27 ∧ plainKey b = b.toNat := by
  have hne : ∀ c : UInt8, c.toNat < 0x20 ∨ 0x7e < c.toNat → b ≠ c := by
    rintro c hc rfl
    omega
  exact ⟨hne 27 (by decide), by rw [plainKey, if_neg (hne 13 (by decide)), if_neg (hne 0x7f (by decide))]⟩

theorem serialKeys_printable {bs : List UInt8} (h : ∀ b ∈ bs, 0x20 ≤ b.toNat ∧ b.toNat ≤ 0x7e)
    (line : SerialLine) :
    serialKeys (bs.map some ++ line) = bs.map (fun b => (b.toNat : Int)) ++ serialKeys line := by
  induction bs with
  | nil => rfl
  | cons b bs ih =>
    obtain ⟨hne, hkey⟩ := plainKey_printable (h b List.mem_cons_self)
    rw [List.map_cons, List.cons_append, serialKeys_cons (serialInput_plain hne _), hkey,
      ih fun c hc => h c (List.mem_cons_of_mem b hc)]
    rfl

/-! ## What it makes of a sequence -/

namespace ControlSequence

variable (s : ControlSequence)

/-- The number that digits spell, as far as an `int` holds it. -/
def number (digits : List UInt8) : Nat := digits.foldl nextValue 0

theorem body_range : ∀ b ∈ s.body, 0x20 ≤ b.toNat ∧ b.toNat ≤ 0x7e := by
  intro b hb
  rw [body, List.mem_append, List.mem_append, List.mem_singleton] at hb
  rcases hb with (hb | hb) | rfl
  · have := s.params_range b hb
    omega
  · have := s.intermediates_range b hb
    omega
  · have := s.final_range
    omega

theorem final_not_digit : isDigit s.final = false := by
  have := s.final_range
  rw [← Bool.not_eq_true, isDigit_iff]
  omega

/-- The results of `serial_input` for it: one for the bytes up to the first that is no digit, and the rest
as they are. -/
def results : List Int :=
  match s.body.dropWhile isDigit with
  | [] => []
  | stop :: rest =>
    (letterKey stop).getD (valueKey (number (s.body.takeWhile isDigit))) :: rest.map fun b => (b.toNat : Int)

theorem dropWhile_body_ne_nil : s.body.dropWhile isDigit ≠ [] := by
  rw [Ne, List.dropWhile_eq_nil_iff]
  intro h
  have hfinal := h s.final (by simp [body])
  rw [s.final_not_digit] at hfinal
  cases hfinal

theorem serialKeys_sequence (line : SerialLine) :
    serialKeys ((Typed.sequence s).bytes.map some ++ line) = s.results ++ serialKeys line := by
  obtain ⟨stop, rest, hrest⟩ := List.exists_cons_of_ne_nil s.dropWhile_body_ne_nil
  have hbody : s.body.takeWhile isDigit ++ stop :: rest = s.body := by
    rw [← hrest, List.takeWhile_append_dropWhile]
  have hstop : isDigit stop = false := by
    have := List.head_dropWhile_not isDigit s.dropWhile_body_ne_nil
    simpa [hrest] using this
  have hrun : serialInput ((Typed.sequence s).bytes.map some ++ line) =
      ((letterKey stop).getD (valueKey (number (s.body.takeWhile isDigit))), rest.map some ++ line) := by
    have hdigits : ∀ b ∈ s.body.takeWhile isDigit, isDigit b = true := fun b hb => List.mem_takeWhile_imp hb
    have hread := inputSequence_digits hdigits (some stop :: (rest.map some ++ line)) 0
    rw [inputSequence_stop hstop] at hread
    rw [number, ← hread]
    have hline : (s.body.takeWhile isDigit).map some ++ some stop :: (rest.map some ++ line) =
        s.body.map some ++ line := by
      conv_rhs => rw [← hbody]
      simp
    rw [hline]
    rfl
  have hsplit : (Typed.sequence s).bytes.map some ++ line =
      some 27 :: (some 91 :: (s.body.map some ++ line)) := rfl
  rw [hsplit] at hrun ⊢
  rw [serialKeys_cons hrun, serialKeys_printable, results, hrest]
  · rfl
  · intro b hb
    refine s.body_range b ?_
    rw [← hbody]
    exact List.mem_append_right _ (List.mem_cons_of_mem stop hb)

/-! ## Which sequences are read as a whole -/

theorem number_eq (digits : List UInt8) : number digits = decimalFrom digits 0 % 2 ^ 32 := by
  suffices h : ∀ val, digits.foldl nextValue (val % 2 ^ 32) = decimalFrom digits val % 2 ^ 32 from h 0
  induction digits with
  | nil =>
    intro val
    rfl
  | cons b digits ih =>
    intro val
    have hnext : nextValue (val % 2 ^ 32) b = addDigit val b % 2 ^ 32 := by
      unfold nextValue addDigit
      omega
    rw [List.foldl_cons, hnext, ih]
    rfl

/-- The parameters of the keys that are numbered. -/
def numbered : List (List UInt8) := [[51], [53], [54], [50, 49]]

/-- The sequences that `input_sequence` reads as what they are: with nothing but digits before the final byte, none
before a letter that is a key, and no number that is a key's (in 32 bits) in any other sequence than its own. -/
structure Simple : Prop where
  digits : ∀ b ∈ s.params, isDigit b = true
  intermediates : s.intermediates = []
  letter : letterKey s.final ≠ none → s.params = []
  value : letterKey s.final = none → valueKey (decimalFrom s.params 0 % 2 ^ 32) ≠ 0 →
    s.final = 126 ∧ s.params ∈ numbered

theorem dropWhile_body_iff : s.body.dropWhile isDigit = [s.final] ↔
    (∀ b ∈ s.params, isDigit b = true) ∧ s.intermediates = [] := by
  constructor
  · intro h
    have hbody : s.body.takeWhile isDigit ++ [s.final] = s.params ++ s.intermediates ++ [s.final] := by
      rw [← h, List.takeWhile_append_dropWhile]
      rw [h, body]
    have hfront := List.append_cancel_right hbody
    have hdigits : ∀ b ∈ s.params ++ s.intermediates, isDigit b = true := by
      intro b hb
      rw [← hfront] at hb
      exact List.mem_takeWhile_imp hb
    refine ⟨fun b hb => hdigits b (List.mem_append_left _ hb), List.eq_nil_iff_forall_not_mem.mpr fun b hb => ?_⟩
    have hdigit := isDigit_iff.mp (hdigits b (List.mem_append_right _ hb))
    have := s.intermediates_range b hb
    omega
  · rintro ⟨hdigits, hnone⟩
    rw [body, hnone, List.append_nil, List.dropWhile_append_of_pos hdigits,
      List.dropWhile_cons_of_neg (by simp [s.final_not_digit])]

theorem takeWhile_body (hdigits : ∀ b ∈ s.params, isDigit b = true) (hnone : s.intermediates = []) :
    s.body.takeWhile isDigit = s.params := by
  rw [body, hnone, List.append_nil, List.takeWhile_append_of_pos hdigits,
    List.takeWhile_cons_of_neg (by simp [s.final_not_digit]), List.append_nil]

/-- The result for a sequence that is read to its final byte. -/
theorem results_of_digits (hdigits : ∀ b ∈ s.params, isDigit b = true) (hnone : s.intermediates = []) :
    s.results = [(letterKey s.final).getD (valueKey (decimalFrom s.params 0 % 2 ^ 32))] := by
  rw [results, s.dropWhile_body_iff.mpr ⟨hdigits, hnone⟩, s.takeWhile_body hdigits hnone, number_eq]
  rfl

theorem letterKey_ne {b : UInt8} {key : Int} (h : letterKey b = some key) : b ≠ 126 ∧ key ≠ 0 := by
  constructor
  · rintro rfl
    cases h
  · rintro rfl
    unfold letterKey at h
    split_ifs at h <;> cases h

/-- What a numbered sequence stands for is what its number does. -/
theorem key_of_numbered (hnone : s.intermediates = []) (hfinal : s.final = 126) (h : s.params ∈ numbered) :
    s.key = valueKey (decimalFrom s.params 0 % 2 ^ 32) := by
  simp only [numbered, List.mem_cons, List.not_mem_nil, or_false] at h
  rcases h with h | h | h | h
  all_goals
    simp only [key, hnone, hfinal, h]
    decide

/-- Any other sequence with parameters stands for nothing. -/
theorem key_of_not_numbered (hparams : s.params ≠ []) (h : ¬ (s.final = 126 ∧ s.params ∈ numbered)) :
    s.key = 0 := by
  simp only [numbered, List.mem_cons, List.not_mem_nil, or_false, not_and, not_or] at h
  unfold key
  by_cases hfinal : s.final = 126
  · obtain ⟨h3, h5, h6, h21⟩ := h hfinal
    simp [hparams, hfinal, h3, h5, h6, h21]
  · simp [hparams, hfinal]

theorem key_of_none (hnone : s.intermediates = []) (hparams : s.params = []) :
    s.key = (letterKey s.final).getD 0 := by
  simp [key, hnone, hparams]

theorem results_iff : s.results = [s.key] ↔ s.Simple := by
  constructor
  · intro h
    have hdrop : s.body.dropWhile isDigit = [s.final] := by
      obtain ⟨stop, rest, hrest⟩ := List.exists_cons_of_ne_nil s.dropWhile_body_ne_nil
      rw [results, hrest] at h
      have hnil : rest = [] := by simpa using (List.cons.inj h).2
      subst hnil
      have hlast := congrArg List.getLast? (List.takeWhile_append_dropWhile (p := isDigit) (l := s.body))
      rw [hrest, List.getLast?_concat, body, List.getLast?_concat] at hlast
      rw [hrest, Option.some.inj hlast]
    obtain ⟨hdigits, hnone⟩ := s.dropWhile_body_iff.mp hdrop
    rw [s.results_of_digits hdigits hnone, List.cons.injEq] at h
    have h := h.1
    refine ⟨hdigits, hnone, fun hletter => ?_, fun hletter hvalue => ?_⟩
    · obtain ⟨key, hkey⟩ := Option.ne_none_iff_exists'.mp hletter
      obtain ⟨hfinal, hzero⟩ := letterKey_ne hkey
      rw [hkey, Option.getD_some] at h
      by_contra hparams
      exact hzero (h.trans (s.key_of_not_numbered hparams fun hn => hfinal hn.1))
    · rw [hletter, Option.getD_none] at h
      by_contra hother
      refine hvalue ?_
      by_cases hparams : s.params = []
      · rw [hparams]
        rfl
      · rw [h, s.key_of_not_numbered hparams hother]
  · rintro ⟨hdigits, hnone, hletter, hvalue⟩
    rw [s.results_of_digits hdigits hnone, List.cons.injEq]
    refine ⟨?_, rfl⟩
    by_cases hparams : s.params = []
    · rw [s.key_of_none hnone hparams, hparams]
      rfl
    · have hnoLetter : letterKey s.final = none := by
        by_contra hsome
        exact hparams (hletter hsome)
      rw [hnoLetter, Option.getD_none]
      by_cases hzero : valueKey (decimalFrom s.params 0 % 2 ^ 32) = 0
      · by_cases hown : s.final = 126 ∧ s.params ∈ numbered
        · rw [s.key_of_numbered hnone hown.1 hown.2]
        · rw [hzero, s.key_of_not_numbered hparams hown]
      · obtain ⟨hfinal, hmem⟩ := hvalue hnoLetter hzero
        rw [s.key_of_numbered hnone hfinal hmem]

end ControlSequence

/-! ## The keys of the whole input -/

namespace Typed

def results : Typed → List Int
  | sequence s => s.results
  | t => [t.key]

theorem results_ne_nil (t : Typed) : t.results ≠ [] := by
  cases t with
  | sequence s =>
    obtain ⟨stop, rest, hrest⟩ := List.exists_cons_of_ne_nil s.dropWhile_body_ne_nil
    rw [results, ControlSequence.results, hrest]
    exact List.cons_ne_nil _ _
  | _ => exact List.cons_ne_nil _ _

theorem serialKeys_typed (t : Typed) (line : SerialLine) :
    serialKeys (t.bytes.map some ++ line) = t.results ++ serialKeys line := by
  cases t with
  | printable b h =>
    have hb : ∀ c ∈ [b], 0x20 ≤ c.toNat ∧ c.toNat ≤ 0x7e := by simpa using h
    exact serialKeys_printable hb line
  | carriageReturn => exact serialKeys_cons (serialInput_plain (by decide) line)
  | backspace => exact serialKeys_cons (serialInput_plain (by decide) line)
  | delete => exact serialKeys_cons (serialInput_plain (by decide) line)
  | sequence s => exact s.serialKeys_sequence line

theorem results_iff (t : Typed) : t.results = [t.key] ↔ ∀ s, t = sequence s → s.Simple := by
  cases t with
  | sequence s =>
    rw [results, key, s.results_iff]
    exact ⟨fun h s' hs => by cases hs; exact h, fun h => h s rfl⟩
  | _ =>
    refine ⟨fun _ s hs => ?_, fun _ => rfl⟩
    cases hs

end Typed

theorem serialKeys_lineOf (typed : List Typed) : serialKeys (lineOf typed) = typed.flatMap Typed.results := by
  induction typed with
  | nil => rfl
  | cons t typed ih =>
    rw [lineOf, List.flatMap_cons, List.map_append, t.serialKeys_typed, ← lineOf, ih, List.flatMap_cons]

theorem serialKeys_typed_iff (typed : List Typed) :
    serialKeys (lineOf typed) = typed.map Typed.key ↔ ∀ s, .sequence s ∈ typed → s.Simple := by
  rw [serialKeys_lineOf, flatMap_eq_map_iff fun t _ => t.results_ne_nil]
  simp only [Typed.results_iff]
  constructor
  · intro h s hs
    exact h _ hs s rfl
  · rintro h t ht s rfl
    exact h s ht

/-- Cursor up with the control key held down. -/
def controlUp : ControlSequence := ⟨[49, 59, 53], [], 65, by simp, by simp, by decide⟩

/-- The parameters after the semicolon and the final byte are typed. -/
theorem serialKeys_controlUp : serialKeys (lineOf [.sequence controlUp]) = [0, 53, 65] ∧
    [Typed.sequence controlUp].map Typed.key = [0] := by
  decide

end Limine.Menu
