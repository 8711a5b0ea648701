import Mathlib.Data.List.Basic

/-!
# Programs that note an error and go on

A program runs through to its end and leaves an error in its state, which is never taken back; a state without one is
clean.  `Accepts clean x post`: where `x` ends clean it began clean, and its result has `post`.  So what every part
says of its own result holds at the end of a run that ends clean (`Accepts.bind`).
-/

namespace Limine.Lib

variable {σ α β : Type} {clean : σ → Prop}

def Accepts (clean : σ → Prop) (x : StateM σ α) (post : α → Prop) : Prop :=
  ∀ s, clean (x.run s).2 → clean s ∧ post (x.run s).1

namespace Accepts
variable {post post' : α → Prop} {post'' : β → Prop}

theorem pure {a : α} (h : post a) : Accepts clean (pure a) post := fun _ hs => ⟨hs, h⟩

theorem imp {x : StateM σ α} (hx : Accepts clean x post) (h : ∀ a, post a → post' a) : Accepts clean x post' := by
  intro s hs
  obtain ⟨hclean, hpost⟩ := hx s hs
  exact ⟨hclean, h _ hpost⟩

/-- What is known of the first result is known at the end, whatever the rest makes of it. -/
theorem bind {x : StateM σ α} {f : α → StateM σ β} (hx : Accepts clean x post)
    (hf : ∀ a, Accepts clean (f a) fun b => post a → post'' b) : Accepts clean (x >>= f) post'' := by
  intro s hs
  obtain ⟨hmid, hpost⟩ := hf _ _ hs
  obtain ⟨hclean, hfirst⟩ := hx s hmid
  exact ⟨hclean, hpost hfirst⟩

theorem seq {x : StateM σ α} {f : α → StateM σ β} (hx : Accepts clean x fun _ => True)
    (hf : ∀ a, Accepts clean (f a) post'') : Accepts clean (x >>= f) post'' :=
  hx.bind fun a => (hf a).imp fun _ h _ => h

theorem ite {c : Prop} [Decidable c] {x y : StateM σ α} (hx : c → Accepts clean x post)
    (hy : ¬c → Accepts clean y post) : Accepts clean (if c then x else y) post := by
  split
  · next h => exact hx h
  · next h => exact hy h

/-- A condition that ends in an error is not met. -/
theorem check {c : Prop} [Decidable c] {x : StateM σ PUnit} (hx : ∀ post, Accepts clean x post) :
    Accepts clean (if c then x else Pure.pure ()) fun _ => ¬c :=
  ite (fun _ => hx _) fun hc => pure hc

end Accepts

end Limine.Lib
