import YeetzS3.Conc.Prog

/-!
# Tasks

A program that is run bit by bit: between two of its requests others move the state, along a preorder `le`. `Prog.Among` says
what holds of such a run from any point on.
-/

namespace Conc.Prog

variable {Req σ : Type} {Resp : Req → Type} {α β : Type} {exec : σ → (r : Req) → Resp r → σ → Prop} {le : σ → σ → Prop}
  {P : Req → Prop} {Q : α → σ → Prop} {s s' : σ} {p : Prog Req Resp α}

/-- The program asks only what `P` allows, and what it returns satisfies `Q` with the state it returns in. -/
def Among (exec : σ → (r : Req) → Resp r → σ → Prop) (le : σ → σ → Prop) (P : Req → Prop) (Q : α → σ → Prop) :
    Prog Req Resp α → σ → Prop
  | ret a, s => Q a s
  | call r k, s => P r ∧ ∀ t x t', le s t → exec t r x t' → Among exec le P Q (k x) t'
  | stop, _ => True

/-- Waiting keeps a task's bounds. -/
theorem Among.later (htrans : ∀ s t u, le s t → le t u → le s u) (hQ : ∀ a s t, le s t → Q a s → Q a t)
    (h : p.Among exec le P Q s) (hle : le s s') : p.Among exec le P Q s' := by
  cases p with
  | ret a => exact hQ a s s' hle h
  | call r k => exact ⟨h.1, fun t x t' ht hx => h.2 t x t' (htrans _ _ _ hle ht) hx⟩
  | stop => trivial

/-- A task alone: what every request of its keeps, its run keeps. -/
theorem Among.runs {J : σ → Prop} {a : α} (hrefl : ∀ s, le s s) (hr : Runs exec p s a s') (h : p.Among exec le P Q s)
    (hJ : ∀ s r x s', J s → P r → exec s r x s' → J s') (hs : J s) : J s' ∧ Q a s' := by
  induction hr with
  | ret => exact ⟨hs, h⟩
  | call hx _ ih => exact ih (h.2 _ _ _ (hrefl _) hx) (hJ _ _ _ _ hs h.1 hx)

end Conc.Prog
