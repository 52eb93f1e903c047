import YeetzS3.Conc.Prog

/-!
# Programs that end

`Prog.Ends` is total correctness: whichever way the service answers, the program comes to a result, and the result and the
state then are as said. It is partial correctness (`Ends.of_runs`) of a program that never stops, so that a part of a program
with nothing to loop in (`Prog.Finite`) is dealt with by what its runs keep.
-/

namespace Conc

namespace Prog

variable {Req : Type} {Resp : Req → Type} {σ α β ε : Type}

/-- However the service answers, the program ends, and `Q` holds of its result and the state. -/
def Ends (exec : σ → (r : Req) → Resp r → σ → Prop) (Q : α → σ → Prop) : Prog Req Resp α → σ → Prop
  | ret a, s => Q a s
  | call r k, s => ∀ x s', exec s r x s' → (k x).Ends exec Q s'
  | stop, _ => False

section
variable {exec : σ → (r : Req) → Resp r → σ → Prop} {Q Q' : α → σ → Prop} {s t : σ} {p : Prog Req Resp α}

@[simp] theorem ends_ret {a : α} : (ret a : Prog Req Resp α).Ends exec Q s ↔ Q a s := Iff.rfl

@[simp] theorem not_ends_stop : ¬ (stop : Prog Req Resp α).Ends exec Q s := id

theorem Ends.imp (h : p.Ends exec Q s) (hq : ∀ a t, Q a t → Q' a t) : p.Ends exec Q' s := by
  induction p generalizing s with
  | ret a => exact hq a s h
  | call r k ih => exact fun x s' hx => ih x (h x s' hx)
  | stop => exact h

theorem Ends.and (h : p.Ends exec Q s) (h' : p.Ends exec Q' s) : p.Ends exec (fun a t => Q a t ∧ Q' a t) s := by
  induction p generalizing s with
  | ret a => exact ⟨h, h'⟩
  | call r k ih => exact fun x s' hx => ih x (h x s' hx) (h' x s' hx)
  | stop => exact h

@[simp] theorem ends_bind {f : α → Prog Req Resp β} {Q : β → σ → Prop} :
    (p >>= f).Ends exec Q s ↔ p.Ends exec (fun a t => (f a).Ends exec Q t) s := by
  induction p generalizing s with
  | ret a => rfl
  | call r k ih => exact forall₃_congr fun x _ _ => ih x
  | stop => rfl

/-- Total correctness is partial correctness of every run. -/
theorem Ends.runs (h : p.Ends exec Q s) {a : α} (hr : p.Runs exec s a t) : Q a t := by
  induction hr with
  | ret => exact h
  | call hx _ ih => exact ih (h _ _ hx)

/-- A program that ends in some way ends as its runs do. -/
theorem Ends.of_runs (h : p.Ends exec Q' s) (hq : ∀ a t, p.Runs exec s a t → Q a t) : p.Ends exec Q s := by
  induction p generalizing s with
  | ret a => exact hq a s .ret
  | call r k ih => exact fun x s' hx => ih x (h x s' hx) fun a t hr => hq a t (.call hx hr)
  | stop => exact h

/-- An operation ends after each of its parts does. -/
theorem ends_bindE {x : Op Req Resp ε α} {f : α → Op Req Resp ε β} {Q : Except ε β → σ → Prop} :
    (x >>= f).run.Ends exec Q s ↔ x.run.Ends exec (fun r t => OnOk (Q · t) (fun a => (f a).run.Ends exec Q t) r) s := by
  rw [ExceptT.run_bind, ends_bind]
  constructor
  · refine fun h => h.imp ?_
    rintro (e | a) t hq <;> exact hq
  · refine fun h => h.imp ?_
    rintro (e | a) t hq <;> exact hq

theorem ends_attempt_bind {ε' : Type} {x : Op Req Resp ε' α} {f : Except ε' α → Op Req Resp ε β} {Q : Except ε β → σ → Prop} :
    (Op.attempt x >>= f).run.Ends exec Q s ↔ x.run.Ends exec (fun r t => (f r).run.Ends exec Q t) s := by
  rw [Op.run_attempt_bind, ends_bind]

theorem ends_lift_bind {f : α → Op Req Resp ε β} {Q : Except ε β → σ → Prop} :
    (ExceptT.lift p >>= f).run.Ends exec Q s ↔ p.Ends exec (fun a t => (f a).run.Ends exec Q t) s := by
  rw [ends_bindE, ExceptT.run_lift, ← bind_pure_comp, ends_bind]
  rfl

/-- What the requests keep, a program that ends keeps. -/
theorem Ends.keep (h : p.Ends exec Q s) {P : Req → Prop} {J : σ → Prop} (hp : p.Every P fun _ => True)
    (hJ : ∀ s r x s', J s → P r → exec s r x s' → J s') (hs : J s) : p.Ends exec (fun a t => Q a t ∧ J t) s :=
  h.and (h.of_runs fun _ _ hr => (hr.keep hp hJ hs).1)

end

/-! ### Programs that are cut off -/

/-- In `t` the program had asked some of its requests, and it asks no more. -/
inductive Cut (exec : σ → (r : Req) → Resp r → σ → Prop) : Prog Req Resp α → σ → σ → Prop where
  | here {p : Prog Req Resp α} {s : σ} : Cut exec p s s
  | call {r : Req} {k : Resp r → Prog Req Resp α} {s s' t : σ} {x : Resp r} (hx : exec s r x s') (hk : Cut exec (k x) s' t) :
      Cut exec (call r k) s t

/-- What every request of a program keeps holds wherever it is cut off. -/
theorem Cut.keep {exec : σ → (r : Req) → Resp r → σ → Prop} {s t : σ} {p : Prog Req Resp α} {P : Req → Prop} {Q : α → Prop}
    {J : σ → Prop} (h : Cut exec p s t) (hp : p.Every P Q) (hJ : ∀ s r x s', J s → P r → exec s r x s' → J s') (hs : J s) : J t := by
  induction h with
  | here => exact hs
  | call hx _ ih => exact ih (hp.2 _) (hJ _ _ _ _ hs hp.1 hx)

/-! ### Programs that end within an invariant -/

/-- From every state of `J` the program ends, in a state of `J`. -/
def Settles (exec : σ → (r : Req) → Resp r → σ → Prop) (J : σ → Prop) (p : Prog Req Resp α) : Prop :=
  ∀ s, J s → p.Ends exec (fun _ => J) s

section
variable {exec : σ → (r : Req) → Resp r → σ → Prop} {J : σ → Prop} {p : Prog Req Resp α}

@[simp] theorem settles_ret {a : α} : (ret a : Prog Req Resp α).Settles exec J := fun _ => id

theorem settles_bind {f : α → Prog Req Resp β} (hp : p.Settles exec J) (hf : ∀ a, (f a).Settles exec J) :
    (p >>= f).Settles exec J := by
  intro s hs
  rw [ends_bind]
  exact (hp s hs).imp fun a t ht => hf a t ht

theorem settles_bindE {x : Op Req Resp ε α} {f : α → Op Req Resp ε β} (hx : x.run.Settles exec J)
    (hf : ∀ a, (f a).run.Settles exec J) : (x >>= f).run.Settles exec J := by
  rw [ExceptT.run_bind]
  refine settles_bind hx ?_
  rintro (e | a)
  · exact settles_ret
  · exact hf a

theorem settles_ask_bind {r : Req} {f : Resp r → Op Req Resp ε β} (hr : ∀ s x s', J s → exec s r x s' → J s')
    (hf : ∀ x, (f x).run.Settles exec J) : (Op.ask r >>= f).run.Settles exec J :=
  fun s hs x s' hx => hf x s' (hr s x s' hs hx)

end

/-! ### Programs without loops to run out of -/

/-- A program that ends whatever the answers are. -/
def Finite : Prog Req Resp α → Prop
  | ret _ => True
  | call _ k => ∀ x, (k x).Finite
  | stop => False

section
variable {exec : σ → (r : Req) → Resp r → σ → Prop} {s : σ} {p : Prog Req Resp α}

@[simp] theorem finite_ret {a : α} : (ret a : Prog Req Resp α).Finite := trivial

theorem finite_bind {f : α → Prog Req Resp β} (hp : p.Finite) (hf : ∀ a, (f a).Finite) : (p >>= f).Finite := by
  induction p with
  | ret a => exact hf a
  | call r k ih => exact fun x => ih x (hp x)
  | stop => exact hp

theorem finite_bindE {x : Op Req Resp ε α} {f : α → Op Req Resp ε β} (hx : x.run.Finite) (hf : ∀ a, (f a).run.Finite) :
    (x >>= f).run.Finite := by
  rw [ExceptT.run_bind]
  refine finite_bind hx ?_
  rintro (e | a)
  · trivial
  · exact hf a

theorem finite_attempt_bind {ε' : Type} {x : Op Req Resp ε' α} {f : Except ε' α → Op Req Resp ε β} (hx : x.run.Finite)
    (hf : ∀ r, (f r).run.Finite) : (Op.attempt x >>= f).run.Finite := by
  rw [Op.run_attempt_bind]
  exact finite_bind hx hf

theorem finite_ask_bind {r : Req} {f : Resp r → Op Req Resp ε β} : (Op.ask r >>= f).run.Finite ↔ ∀ x, (f x).run.Finite := Iff.rfl

theorem Finite.ends (h : p.Finite) : p.Ends exec (fun _ _ => True) s := by
  induction p generalizing s with
  | ret a => trivial
  | call r k ih => exact fun x s' _ => ih x (h x)
  | stop => exact h

theorem Finite.settles (h : p.Finite) {P : Req → Prop} {J : σ → Prop} (hp : p.Every P fun _ => True)
    (hJ : ∀ s r x s', J s → P r → exec s r x s' → J s') : p.Settles exec J :=
  fun _ hs => (h.ends.keep hp hJ hs).imp fun _ _ => And.right

end

end Prog

end Conc
