import Limine.Lib.Triple
import Mathlib

/-!
# Passes over positions with marks

A pass visits positions in order and keeps a state.  Some positions are marks: a reset takes the
state back to where the pass began, a stop ends the pass.  What is left of it is the pass over a
window, from the last reset before the first stop up to that stop.

    Ends allowed (scan reset stop body init l init) (P (window reset stop l))      (Scan.ends)
    a ∈ window reset stop l  ↔  Inside reset stop l a                              (mem_window)
-/

namespace Limine.Lib

variable {α σ ε : Type}

/-- The pass: `continue` after a reset, `break` at a stop. -/
def scan (reset stop : α → Bool) (body : σ → α → Except ε σ) (init : σ) : List α → σ → Except ε σ
  | [], s => .ok s
  | a :: as, s =>
    if reset a then scan reset stop body init as init
    else if stop a then .ok s
    else do
      let s ← body s a
      scan reset stop body init as s

/-- The positions visited since the last reset, those of `front` and what comes of the list. -/
def windowFrom (reset stop : α → Bool) (front : List α) : List α → List α
  | [] => front
  | a :: as =>
    if reset a then windowFrom reset stop [] as
    else if stop a then front
    else windowFrom reset stop (front ++ [a]) as

def window (reset stop : α → Bool) (l : List α) : List α := windowFrom reset stop [] l

section
variable {reset stop : α → Bool}

theorem windowFrom_sublist (l : List α) : ∀ front : List α,
    (windowFrom reset stop front l).Sublist (front ++ l) := by
  induction l with
  | nil =>
    intro front
    rw [windowFrom, List.append_nil]
  | cons a as ih =>
    intro front
    rw [windowFrom]
    split
    · exact (ih []).trans ((List.sublist_cons_self a as).trans (List.sublist_append_right front _))
    · split
      · exact List.sublist_append_left front _
      · have h := ih (front ++ [a])
        rwa [List.append_assoc] at h

theorem window_sublist (l : List α) : (window reset stop l).Sublist l := windowFrom_sublist l []

/-- The rule of the pass: what one turn keeps holds of the window at the end. -/
theorem Scan.endsFrom {allowed : ε → Prop} {body : σ → α → Except ε σ} {init : σ} {P : List α → σ → Prop}
    {l₀ : List α} (hinit : P [] init)
    (hstep : ∀ front a s, a ∈ l₀ → P front s → Ends allowed (body s a) (P (front ++ [a]))) (l : List α) :
    ∀ front s, (∀ a ∈ l, a ∈ l₀) → P front s →
      Ends allowed (scan reset stop body init l s) (P (windowFrom reset stop front l)) := by
  induction l with
  | nil =>
    intro front s _ hP
    exact hP
  | cons a as ih =>
    intro front s hl hP
    have has : ∀ b ∈ as, b ∈ l₀ := fun b hb => hl b (List.mem_cons_of_mem a hb)
    rw [scan, windowFrom]
    split
    · exact ih [] init has hinit
    · split
      · exact hP
      · exact (hstep front a s (hl a List.mem_cons_self) hP).bind fun s' hs' => ih _ s' has hs'

theorem Scan.ends {allowed : ε → Prop} {body : σ → α → Except ε σ} {init : σ} {P : List α → σ → Prop}
    {l : List α} (hinit : P [] init)
    (hstep : ∀ front a s, a ∈ l → P front s → Ends allowed (body s a) (P (front ++ [a]))) :
    Ends allowed (scan reset stop body init l init) (P (window reset stop l)) :=
  Scan.endsFrom hinit hstep l [] init (fun _ ha => ha) hinit

/-- Marks that agree make the same window. -/
theorem windowFrom_congr {reset' stop' : α → Bool} (l : List α) : ∀ front : List α,
    (∀ a ∈ l, reset a = reset' a) → (∀ a ∈ l, stop a = stop' a) →
      windowFrom reset stop front l = windowFrom reset' stop' front l := by
  induction l with
  | nil =>
    intro front _ _
    rfl
  | cons a as ih =>
    intro front hr hs
    have ih' := fun front => ih front (fun b hb => hr b (List.mem_cons_of_mem a hb))
      fun b hb => hs b (List.mem_cons_of_mem a hb)
    rw [windowFrom, windowFrom, hr a List.mem_cons_self, hs a List.mem_cons_self, ih', ih']

theorem window_congr {reset' stop' : α → Bool} {l : List α} (hr : ∀ a ∈ l, reset a = reset' a)
    (hs : ∀ a ∈ l, stop a = stop' a) : window reset stop l = window reset' stop' l :=
  windowFrom_congr l [] hr hs

end

/-! ## The window by the order of the marks -/

section
variable [LinearOrder α] {reset stop : α → Bool}

/-- No stop up to `a`, and a stop before each reset from `a` on. -/
def Inside (reset stop : α → Bool) (l : List α) (a : α) : Prop :=
  a ∈ l ∧ (∀ b ∈ l, b ≤ a → stop b = false) ∧
    ∀ b ∈ l, a ≤ b → reset b = true → ∃ c ∈ l, c ≤ b ∧ stop c = true

/-- `done` has no stop, and `front` is what of it comes after its last reset. -/
theorem mem_windowFrom (hone : ∀ a, reset a = true → stop a = false) (l : List α) :
    ∀ done front : List α, (done ++ l).Pairwise (· < ·) → (∀ b ∈ done, stop b = false) →
      (∀ a, a ∈ front ↔ a ∈ done ∧ ∀ b ∈ done, a ≤ b → reset b = false) →
      ∀ a, a ∈ windowFrom reset stop front l ↔ Inside reset stop (done ++ l) a := by
  induction l with
  | nil =>
    intro done front _ hstop hfront a
    rw [windowFrom, List.append_nil, hfront]
    constructor
    · rintro ⟨ha, hreset⟩
      refine ⟨ha, fun b hb _ => hstop b hb, fun b hb hle hr => ?_⟩
      rw [hreset b hb hle] at hr
      cases hr
    · rintro ⟨ha, -, hreset⟩
      refine ⟨ha, fun b hb hle => Bool.eq_false_iff.mpr fun hr => ?_⟩
      obtain ⟨c, hc, -, hcs⟩ := hreset b hb hle hr
      rw [hstop c hc] at hcs
      cases hcs
  | cons x l ih =>
    intro done front hsorted hstop hfront a
    have hx : ∀ b ∈ done, b < x := by
      intro b hb
      exact (List.pairwise_append.mp hsorted).2.2 b hb x List.mem_cons_self
    have hafter : ∀ b ∈ x :: l, x ≤ b := by
      intro b hb
      rcases List.mem_cons.mp hb with rfl | hb
      · exact le_refl _
      · exact ((List.pairwise_cons.mp (List.pairwise_append.mp hsorted).2.1).1 b hb).le
    have hdone : ∀ b ∈ done ++ x :: l, b < x → b ∈ done := by
      intro b hb hlt
      rcases List.mem_append.mp hb with hb | hb
      · exact hb
      · exact absurd hlt (not_lt.mpr (hafter b hb))
    have hassoc : done ++ x :: l = (done ++ [x]) ++ l := by
      rw [List.append_assoc]
      rfl
    have hstop' : stop x = false → ∀ b ∈ done ++ [x], stop b = false :=
      fun hs => forall_mem_concat hstop hs
    rw [windowFrom]
    by_cases hr : reset x = true
    · -- Nothing from before a reset is left.
      rw [if_pos hr, hassoc]
      refine ih (done ++ [x]) [] (hassoc ▸ hsorted) (hstop' (hone x hr)) (fun b => ?_) a
      constructor
      · intro hb
        cases hb
      · rintro ⟨hb, hreset⟩
        have hle : b ≤ x := by
          rcases List.mem_append.mp hb with hb | hb
          · exact (hx b hb).le
          · exact (List.mem_singleton.mp hb).le
        rw [hreset x (by simp) hle] at hr
        cases hr
    · rw [if_neg hr]
      by_cases hs : stop x = true
      · -- At a stop the window is what there is.
        rw [if_pos hs, hfront]
        constructor
        · rintro ⟨ha, hreset⟩
          refine ⟨List.mem_append_left _ ha, fun b hb hle => ?_, fun b hb hle hrb => ?_⟩
          · exact hstop b (hdone b hb (hle.trans_lt (hx a ha)))
          · refine ⟨x, by simp, ?_, hs⟩
            rw [← not_lt]
            intro hlt
            rw [hreset b (hdone b hb hlt) hle] at hrb
            cases hrb
        · rintro ⟨ha, hbefore, hreset⟩
          have hlt : a < x := by
            rw [← not_le]
            intro hle
            rw [hbefore x (by simp) hle] at hs
            cases hs
          refine ⟨hdone a ha hlt, fun b hb hle => Bool.eq_false_iff.mpr fun hrb => ?_⟩
          obtain ⟨c, hc, hcb, hcs⟩ := hreset b (List.mem_append_left _ hb) hle hrb
          rw [hstop c (hdone c hc (hcb.trans_lt (hx b hb)))] at hcs
          cases hcs
      · have hs : stop x = false := Bool.eq_false_iff.mpr hs
        have hr : reset x = false := Bool.eq_false_iff.mpr hr
        rw [if_neg (by simp [hs]), hassoc]
        refine ih (done ++ [x]) (front ++ [x]) (hassoc ▸ hsorted) (hstop' hs) (fun b => ?_) a
        rw [List.mem_append, List.mem_append, List.mem_singleton, hfront]
        constructor
        · rintro (⟨hb, hreset⟩ | rfl)
          · exact ⟨.inl hb, forall_mem_concat (P := fun c => b ≤ c → reset c = false) hreset fun _ => hr⟩
          · refine ⟨.inr rfl, forall_mem_concat (P := fun c => b ≤ c → reset c = false) (fun c hc hle => ?_)
              fun _ => hr⟩
            exact absurd (hx c hc) (not_lt.mpr hle)
        · rintro ⟨hb | hb, hreset⟩
          · exact .inl ⟨hb, fun c hc => hreset c (List.mem_append_left _ hc)⟩
          · exact .inr hb

theorem mem_window (hone : ∀ a, reset a = true → stop a = false) {l : List α} (hsorted : l.Pairwise (· < ·))
    (a : α) : a ∈ window reset stop l ↔ Inside reset stop l a := by
  refine mem_windowFrom hone l [] [] hsorted (fun b hb => ?_) (fun b => ?_) a
  · cases hb
  · simp

end

end Limine.Lib
