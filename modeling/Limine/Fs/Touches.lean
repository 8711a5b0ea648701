import Limine.Fs.Names
import Limine.Lib.Traced
import Mathlib.Data.List.GetD

/-!
# What a search for a name touches

A directory is searched in memory: bytes of it are read, names are put together in a buffer of their own
and compared there.  `Gives` says of a part of a search that it touches nothing else than the two and what
its result is.
-/

namespace Limine.Fs
open Limine.Config (tolower)
open Limine.Lib (Traced)

/-- Bytes of the directory, or a byte of the buffer for names. -/
inductive Touch
  | directory (offset count : Nat)
  | name (index : Nat)
deriving DecidableEq, Repr

abbrev Search := Traced Touch

variable {ε α β : Type}

def touch (a : Touch) : Search ε Unit := Traced.access a (.ok ())

/-- What `strcasecmp` looks at of a byte, or `strcmp`. -/
def foldOf (caseInsensitiveFopen : Bool) : UInt8 → UInt8 := if caseInsensitiveFopen then tolower else id

/-- `strcmp` or `strcasecmp` of the buffer from `i` on and a name. -/
def compareName (fold : UInt8 → UInt8) (buf : List UInt8) : Nat → List UInt8 → Search ε Bool
  | i, [] => do
    touch (.name i)
    pure (decide (fold (buf.getD i 0) = fold 0))
  | i, c :: name => do
    touch (.name i)
    if fold (buf.getD i 0) ≠ fold c then pure false
    else if buf.getD i 0 = 0 then pure true
    else compareName fold buf (i + 1) name

/-! ## Within the buffers -/

structure Sizes where
  directory : Nat
  name : Nat

def Touch.Inside (sizes : Sizes) : Touch → Prop
  | .directory offset count => offset + count ≤ sizes.directory
  | .name index => index < sizes.name

variable {sizes : Sizes}

/-- A part of a search stays within the buffers and has the result `a`. -/
def Gives (sizes : Sizes) (a : α) (x : Search ε α) : Prop :=
  x.Ensures (Touch.Inside sizes) (fun _ => False) (· = a)

theorem Gives.pure (a : α) : Gives sizes a (Pure.pure a : Search ε α) := Traced.Ensures.pure rfl

theorem Gives.bind {x : Search ε α} {f : α → Search ε β} {a : α} {b : β} (hx : Gives sizes a x)
    (hf : Gives sizes b (f a)) : Gives sizes b (x >>= f) := by
  refine Traced.Ensures.bind hx ?_
  rintro _ rfl
  exact hf

theorem Gives.ite {c : Prop} [Decidable c] {x y : Search ε α} {a b : α} (hx : c → Gives sizes a x)
    (hy : ¬c → Gives sizes b y) : Gives sizes (if c then a else b) (if c then x else y) := by
  by_cases h : c
  · rw [if_pos h, if_pos h]
    exact hx h
  · rw [if_neg h, if_neg h]
    exact hy h

theorem Gives.touch {a : Touch} (h : a.Inside sizes) : Gives sizes () (Fs.touch a : Search ε Unit) :=
  Traced.Ensures.access h rfl

theorem Gives.result {x : Search ε α} {a : α} (h : Gives sizes a x) : x.result = .ok a := by
  have hresult := h.2
  unfold Lib.Ends at hresult
  split at hresult
  · next b hok => rw [hok, hresult]
  · exact hresult.elim

theorem foldOf_zero (caseInsensitiveFopen : Bool) (c : UInt8)
    (h : foldOf caseInsensitiveFopen c = foldOf caseInsensitiveFopen 0) : c = 0 := by
  cases caseInsensitiveFopen with
  | false => exact h
  | true =>
    have htolower : tolower c = 0 := h
    unfold tolower at htolower
    split at htolower
    · next hc =>
      rw [UInt8.le_iff_toNat_le, UInt8.le_iff_toNat_le] at hc
      have hsum := congrArg UInt8.toNat htolower
      rw [UInt8.toNat_add] at hsum
      simp at hc hsum
      omega
    · exact htolower

theorem foldOf_compare (caseInsensitiveFopen : Bool) (a b : List UInt8) :
    decide ((cString a).map (foldOf caseInsensitiveFopen) = (cString b).map (foldOf caseInsensitiveFopen)) =
      if caseInsensitiveFopen then strcasecmpEq a b else strcmpEq a b := by
  cases caseInsensitiveFopen with
  | false =>
    unfold foldOf strcmpEq
    simp
  | true => rfl

/-- A comparison stays in the buffer where a NUL is ahead in it. -/
theorem compareName_gives {fold : UInt8 → UInt8} (hfold : ∀ c, fold c = fold 0 → c = 0) {buf : List UInt8}
    (hlen : buf.length ≤ sizes.name) (name : List UInt8) : ∀ i k : Nat, i ≤ k →
    k < buf.length → buf.getD k 0 = 0 →
    Gives sizes (decide ((cString (buf.drop i)).map fold = (cString name).map fold))
      (compareName fold buf i name : Search ε Bool) := by
  induction name with
  | nil =>
    intro i k hik hk hnul
    rw [compareName, List.drop_eq_getElem_cons (by omega), ← List.getD_eq_getElem _ 0 (by omega)]
    refine Gives.bind (Gives.touch (show i < _ by omega)) ?_
    unfold cString
    by_cases hc : buf.getD i 0 = 0
    · rw [hc, List.takeWhile_cons_of_neg (by simp), decide_eq_true rfl]
      exact .pure _
    · rw [List.takeWhile_cons_of_pos (by simpa using hc), decide_eq_false fun h => hc (hfold _ h)]
      exact .pure _
  | cons c name ih =>
    intro i k hik hk hnul
    rw [compareName, List.drop_eq_getElem_cons (by omega), ← List.getD_eq_getElem _ 0 (by omega)]
    refine Gives.bind (Gives.touch (show i < _ by omega)) ?_
    have hne : i ≠ k → i + 1 ≤ k := by omega
    generalize hd : buf.getD i 0 = d
    unfold cString at ih ⊢
    by_cases hsame : fold d = fold c
    · rw [if_neg (not_not.mpr hsame)]
      by_cases hzero : d = 0
      · have hc : c = 0 := hfold c (by rw [← hsame, hzero])
        rw [if_pos hzero, hzero, hc, List.takeWhile_cons_of_neg (by simp), List.takeWhile_cons_of_neg (by simp),
          decide_eq_true rfl]
        exact .pure _
      · have hc : c ≠ 0 := by
          rintro rfl
          exact hzero (hfold d hsame)
        rw [if_neg hzero, List.takeWhile_cons_of_pos (by simpa using hzero),
          List.takeWhile_cons_of_pos (by simpa using hc), List.map_cons, List.map_cons, hsame]
        have hrest := ih (i + 1) k (hne (by rintro rfl; exact hzero (hd.symm.trans hnul))) hk hnul
        rwa [decide_eq_decide.mpr (List.cons_inj_right _)]
    · rw [if_pos hsame]
      have hdiffer : ¬(List.takeWhile (fun c => decide (c ≠ 0)) (d :: buf.drop (i + 1))).map fold =
          (List.takeWhile (fun c => decide (c ≠ 0)) (c :: name)).map fold := by
        intro heq
        rw [List.takeWhile_cons, List.takeWhile_cons] at heq
        by_cases hzero : d = 0 <;> by_cases hc : c = 0 <;> simp_all
      rw [decide_eq_false hdiffer]
      exact .pure _

end Limine.Fs
