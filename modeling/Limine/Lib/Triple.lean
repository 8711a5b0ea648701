import Mathlib.Algebra.Group.Nat.Defs

/-!
# Programs that keep an invariant and may fail

`Ends allowed x post`: `x` gives a result with `post`, or fails as `allowed` says.
`Keeps inv allowed x post`: the same for a program with a state, from every state with `inv` and
into one.
-/

namespace Limine.Lib

variable {ε σ α β : Type}

theorem ok_bind (a : α) (f : α → Except ε β) : ((Except.ok a : Except ε α) >>= f) = f a := rfl

theorem except_bind_eq_ok {x : Except ε α} {f : α → Except ε β} {b : β} :
    (x >>= f) = .ok b ↔ ∃ a, x = .ok a ∧ f a = .ok b := by
  cases x with
  | ok a =>
    rw [ok_bind]
    simp
  | error e =>
    show (Except.error e = _) ↔ _
    simp

theorem forall_mem_concat {P : α → Prop} {l : List α} {a : α} (hl : ∀ x ∈ l, P x) (ha : P a) :
    ∀ x ∈ l ++ [a], P x := by
  intro x hx
  rcases List.mem_append.mp hx with hx | hx
  · exact hl x hx
  · rw [List.mem_singleton.mp hx]
    exact ha

theorem pairwise_concat {R : α → α → Prop} {l : List α} {a : α} (hl : l.Pairwise R)
    (ha : ∀ x ∈ l, R x a) : (l ++ [a]).Pairwise R := by
  rw [List.pairwise_append]
  refine ⟨hl, List.pairwise_singleton R a, fun x hx y hy => ?_⟩
  rw [List.mem_singleton.mp hy]
  exact ha x hx

/-- A loop may leave out what its body does nothing for. -/
theorem foldlM_filter_of_skip {step : β → α → Except ε β} {q : α → Bool}
    (hskip : ∀ b a, q a = false → step b a = .ok b) (l : List α) (b : β) :
    l.foldlM step b = (l.filter q).foldlM step b := by
  induction l generalizing b with
  | nil => rfl
  | cons a l ih =>
    cases hq : q a with
    | true =>
      rw [List.filter_cons_of_pos hq, List.foldlM_cons, List.foldlM_cons]
      congr 1
      funext b'
      exact ih b'
    | false =>
      rw [List.filter_cons_of_neg (by simp [hq]), List.foldlM_cons, hskip b a hq, ok_bind]
      exact ih b

def Ends (allowed : ε → Prop) (x : Except ε α) (post : α → Prop) : Prop :=
  match x with
  | .ok a => post a
  | .error e => allowed e

namespace Ends

variable {allowed : ε → Prop} {post : α → Prop} {post' : β → Prop}

theorem ok {a : α} (h : post a) : Ends allowed (.ok a : Except ε α) post := h

theorem error {e : ε} (h : allowed e) : Ends allowed (.error e : Except ε α) post := h

theorem imp {x : Except ε α} {post' : α → Prop} (hx : Ends allowed x post)
    (h : ∀ a, post a → post' a) : Ends allowed x post' :=
  match x, hx with
  | .ok a, ha => h a ha
  | .error _, he => he

theorem weaken {x : Except ε α} {allowed' : ε → Prop} (hx : Ends allowed x post)
    (h : ∀ e, allowed e → allowed' e) : Ends allowed' x post :=
  match x, hx with
  | .ok _, ha => ha
  | .error e, he => h e he

theorem bind {x : Except ε α} {f : α → Except ε β} (hx : Ends allowed x post)
    (hf : ∀ a, post a → Ends allowed (f a) post') : Ends allowed (x >>= f) post' :=
  match x, hx with
  | .ok a, ha => hf a ha
  | .error _, he => he

/-- The loop rule: `inv` speaks of what the loop is through with. -/
theorem foldlM {step : β → α → Except ε β} (inv : List α → β → Prop) {l : List α}
    (hstep : ∀ front a rest b, l = front ++ a :: rest → inv front b →
      Ends allowed (step b a) (inv (front ++ [a]))) {b : β} (hb : inv [] b) :
    Ends allowed (l.foldlM step b) (inv l) := by
  suffices h : ∀ rest front b, l = front ++ rest → inv front b →
      Ends allowed (rest.foldlM step b) (inv l) from h l [] b rfl hb
  intro rest
  induction rest with
  | nil =>
    intro front b hl hb
    rw [List.append_nil] at hl
    subst hl
    exact hb
  | cons a rest ih =>
    intro front b hl hb
    rw [List.foldlM_cons]
    refine (hstep front a rest b hl hb).bind fun b' hb' => ih (front ++ [a]) b' ?_ hb'
    rw [hl, List.append_assoc]
    rfl

theorem and_eq {x : Except ε α} (hx : Ends allowed x post) :
    Ends allowed x fun a => x = .ok a ∧ post a :=
  match x, hx with
  | .ok _, ha => ⟨rfl, ha⟩
  | .error _, he => he

theorem of_ok {x : Except ε α} {a : α} (hx : Ends allowed x post) (h : x = .ok a) : post a := by
  subst h
  exact hx

end Ends

def Keeps (inv : σ → Prop) (allowed : ε → Prop) (x : StateT σ (Except ε) α) (post : α → Prop) :
    Prop :=
  ∀ s, inv s → Ends allowed (x s) fun r => post r.1 ∧ inv r.2

namespace Keeps

variable {inv : σ → Prop} {allowed : ε → Prop} {post : α → Prop} {post' : β → Prop}

theorem pure {a : α} (h : post a) :
    Keeps inv allowed (Pure.pure a : StateT σ (Except ε) α) post :=
  fun _ hs => ⟨h, hs⟩

theorem throw {e : ε} (h : allowed e) :
    Keeps inv allowed (MonadExcept.throw e : StateT σ (Except ε) α) post :=
  fun _ _ => h

theorem lift {x : Except ε α} (hx : Ends allowed x post) :
    Keeps inv allowed (liftM x : StateT σ (Except ε) α) post :=
  fun _ hs => match x, hx with
  | .ok _, ha => ⟨ha, hs⟩
  | .error _, he => he

theorem imp {x : StateT σ (Except ε) α} {post' : α → Prop} (hx : Keeps inv allowed x post)
    (h : ∀ a, post a → post' a) : Keeps inv allowed x post' :=
  fun s hs => (hx s hs).imp fun r hr => ⟨h r.1 hr.1, hr.2⟩

theorem bind {x : StateT σ (Except ε) α} {f : α → StateT σ (Except ε) β}
    (hx : Keeps inv allowed x post) (hf : ∀ a, post a → Keeps inv allowed (f a) post') :
    Keeps inv allowed (x >>= f) post' :=
  fun s hs => (hx s hs).bind fun r hr => hf r.1 hr.1 r.2 hr.2

theorem get_bind {f : σ → StateT σ (Except ε) β}
    (hf : ∀ s, inv s → Keeps inv allowed (f s) post') :
    Keeps inv allowed (MonadState.get >>= f) post' :=
  fun s hs => hf s hs s hs

theorem set_bind {s' : σ} {f : PUnit → StateT σ (Except ε) β} (hs' : inv s')
    (hf : Keeps inv allowed (f ⟨⟩) post') :
    Keeps inv allowed (MonadStateOf.set s' >>= f) post' :=
  fun _ _ => hf s' hs'

theorem ite {c : Prop} [Decidable c] {x y : StateT σ (Except ε) α}
    (hx : c → Keeps inv allowed x post) (hy : ¬c → Keeps inv allowed y post) :
    Keeps inv allowed (if c then x else y) post := by
  split
  · next h => exact hx h
  · next h => exact hy h

end Keeps

end Limine.Lib
