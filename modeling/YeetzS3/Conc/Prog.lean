import Mathlib.Logic.Basic

/-!
# Programs of requests

A client of a shared service, as the sequence of requests it makes. Between two requests the client
is ordinary code, so a program is a tree: a result, a request with a continuation for every answer,
or a client that is cut off. `Prog.Every` bounds what a program may ask for and return whatever the
answers are; `Prog.eval` runs it alone against a deterministic service; `Prog.Runs` is the same for a
service that may answer in several ways.
-/

namespace Conc

/-- A program over requests `Req`, where `r : Req` is answered by a `Resp r`. `stop` is a client that
neither asks nor returns again: a loop that ran out of its fuel, or a process that is gone. -/
inductive Prog (Req : Type) (Resp : Req → Type) (α : Type) where
  | ret (a : α)
  | call (r : Req) (k : Resp r → Prog Req Resp α)
  | stop

/-- A program that may fail with an `ε`; its `bind` returns at the first failure. -/
abbrev Op (Req : Type) (Resp : Req → Type) (ε α : Type) := ExceptT ε (Prog Req Resp) α

namespace Prog

variable {Req : Type} {Resp : Req → Type} {α β : Type}

/-- Run `f` on the result. -/
def bind : Prog Req Resp α → (α → Prog Req Resp β) → Prog Req Resp β
  | ret a, f => f a
  | call r k, f => call r fun x => (k x).bind f
  | stop, _ => stop

instance : Monad (Prog Req Resp) where
  pure := ret
  bind := bind

/-- Ask one request and return its answer. -/
def ask (r : Req) : Prog Req Resp (Resp r) := call r ret

@[simp] theorem pure_eq (a : α) : (pure a : Prog Req Resp α) = ret a := rfl
@[simp] theorem ret_bind (a : α) (f : α → Prog Req Resp β) : ret a >>= f = f a := rfl
@[simp] theorem call_bind (r : Req) (k : Resp r → Prog Req Resp α) (f : α → Prog Req Resp β) :
    call r k >>= f = call r fun x => k x >>= f := rfl
@[simp] theorem stop_bind (f : α → Prog Req Resp β) : (stop : Prog Req Resp α) >>= f = stop := rfl

theorem bind_ret (p : Prog Req Resp α) : p >>= ret = p := by
  induction p with
  | ret a => rfl
  | call r k ih => simp only [call_bind, ih]
  | stop => rfl

theorem bind_bind {γ : Type} (p : Prog Req Resp α) (f : α → Prog Req Resp β) (g : β → Prog Req Resp γ) :
    p >>= f >>= g = p >>= fun a => f a >>= g := by
  induction p with
  | ret a => rfl
  | call r k ih => simp only [call_bind, ih]
  | stop => rfl

instance : LawfulMonad (Prog Req Resp) := LawfulMonad.mk' _ (fun p => bind_ret p) (fun _ _ => rfl)
  (fun p f g => bind_bind p f g)

/-! ### What a program may ask, whatever the answers -/

/-- Every request satisfies `P` and every result `Q`, whatever the service answers. -/
def Every (P : Req → Prop) (Q : α → Prop) : Prog Req Resp α → Prop
  | ret a => Q a
  | call r k => P r ∧ ∀ x, (k x).Every P Q
  | stop => True

variable {P : Req → Prop} {Q Q' : α → Prop}

@[simp] theorem every_ret {a : α} : (ret a : Prog Req Resp α).Every P Q ↔ Q a := Iff.rfl
@[simp] theorem every_stop : (stop : Prog Req Resp α).Every P Q := trivial
@[simp] theorem every_ask {r : Req} {Q : Resp r → Prop} : (ask r : Prog Req Resp _).Every P Q ↔ P r ∧ ∀ x, Q x := Iff.rfl

@[simp] theorem every_bind {p : Prog Req Resp α} {f : α → Prog Req Resp β} {Q : β → Prop} :
    (p >>= f).Every P Q ↔ p.Every P fun a => (f a).Every P Q := by
  induction p with
  | ret a => rfl
  | call r k ih => simp only [call_bind, Every, ih]
  | stop => rfl

theorem Every.imp {p : Prog Req Resp α} (h : p.Every P Q) (hq : ∀ a, Q a → Q' a) : p.Every P Q' := by
  induction p with
  | ret a => exact hq a h
  | call r k ih => exact ⟨h.1, fun x => ih x (h.2 x)⟩
  | stop => trivial

theorem Every.mono {P' : Req → Prop} {p : Prog Req Resp α} (h : p.Every P Q) (hp : ∀ r, P r → P' r) : p.Every P' Q := by
  induction p with
  | ret a => exact h
  | call r k ih => exact ⟨hp r h.1, fun x => ih x (h.2 x)⟩
  | stop => trivial

theorem every_true (p : Prog Req Resp α) : p.Every (fun _ => True) fun _ => True := by
  induction p with
  | ret a => trivial
  | call r k ih => exact ⟨trivial, ih⟩
  | stop => trivial

/-- How an operation goes on after a result that may be a failure. -/
def OnOk {ε : Type} (Q : Except ε β → Prop) (F : α → Prop) : Except ε α → Prop
  | .ok a => F a
  | .error e => Q (.error e)

section
variable {ε : Type} {p : Op Req Resp ε α} {f : α → Op Req Resp ε β} {Q : Except ε β → Prop}

@[simp] theorem every_bindE : (p >>= f).run.Every P Q ↔ p.run.Every P (OnOk Q fun a => (f a).run.Every P Q) := by
  rw [ExceptT.run_bind, every_bind]
  constructor
  · refine fun h => h.imp ?_
    rintro (e | a) hq <;> exact hq
  · refine fun h => h.imp ?_
    rintro (e | a) hq <;> exact hq

/-- An operation of which only the requests matter. -/
theorem every_bind_trivial (hp : p.run.Every P fun _ => True) (hf : ∀ a, (f a).run.Every P fun _ => True) :
    (p >>= f).run.Every P fun _ => True := by
  rw [every_bindE]
  refine hp.imp ?_
  rintro (e | a) -
  · trivial
  · exact hf a

@[simp] theorem every_pureE {a : β} : (pure a : Op Req Resp ε β).run.Every P Q ↔ Q (.ok a) := Iff.rfl
@[simp] theorem every_throwE {e : ε} : (throw e : Op Req Resp ε β).run.Every P Q ↔ Q (.error e) := Iff.rfl

@[simp] theorem every_liftE {p : Prog Req Resp β} :
    (ExceptT.lift p : Op Req Resp ε β).run.Every P Q ↔ p.Every P fun a => Q (.ok a) := by
  rw [ExceptT.run_lift, ← bind_pure_comp, every_bind]
  rfl

end

/-! ### What a program may ask, given what answers say -/

/-- Every request satisfies `P` and every result `Q`, as long as every answer is as `A` says. -/
def Under (A : (r : Req) → Resp r → Prop) (P : Req → Prop) (Q : α → Prop) : Prog Req Resp α → Prop
  | ret a => Q a
  | call r k => P r ∧ ∀ x, A r x → (k x).Under A P Q
  | stop => True

section
variable {A : (r : Req) → Resp r → Prop} {P : Req → Prop} {Q Q' : α → Prop}

theorem Every.under {p : Prog Req Resp α} (h : p.Every P Q) : p.Under A P Q := by
  induction p with
  | ret a => exact h
  | call r k ih => exact ⟨h.1, fun x _ => ih x (h.2 x)⟩
  | stop => trivial

/-- Nothing is known of the answers. -/
theorem under_true {p : Prog Req Resp α} : p.Under (fun _ _ => True) P Q ↔ p.Every P Q := by
  refine ⟨fun h => ?_, Every.under⟩
  induction p with
  | ret a => exact h
  | call r k ih => exact ⟨h.1, fun x => ih x (h.2 x trivial)⟩
  | stop => trivial

theorem Under.imp {p : Prog Req Resp α} (h : p.Under A P Q) (hq : ∀ a, Q a → Q' a) : p.Under A P Q' := by
  induction p with
  | ret a => exact hq a h
  | call r k ih => exact ⟨h.1, fun x hx => ih x (h.2 x hx)⟩
  | stop => trivial

theorem Under.mono {P' : Req → Prop} {p : Prog Req Resp α} (h : p.Under A P Q) (hp : ∀ r, P r → P' r) : p.Under A P' Q := by
  induction p with
  | ret a => exact h
  | call r k ih => exact ⟨hp r h.1, fun x hx => ih x (h.2 x hx)⟩
  | stop => trivial

@[simp] theorem under_bind {p : Prog Req Resp α} {f : α → Prog Req Resp β} {Q : β → Prop} :
    (p >>= f).Under A P Q ↔ p.Under A P fun a => (f a).Under A P Q := by
  induction p with
  | ret a => rfl
  | call r k ih => simp only [call_bind, Under, ih]
  | stop => rfl

theorem under_bindE {ε : Type} {p : Op Req Resp ε α} {f : α → Op Req Resp ε β} {Q : Except ε β → Prop} :
    (p >>= f).run.Under A P Q ↔ p.run.Under A P (OnOk Q fun a => (f a).run.Under A P Q) := by
  rw [ExceptT.run_bind, under_bind]
  constructor
  · refine fun h => h.imp ?_
    rintro (e | a) hq <;> exact hq
  · refine fun h => h.imp ?_
    rintro (e | a) hq <;> exact hq

/-- An operation of which only the requests matter, after one of which only they do. -/
theorem under_bind_trivial {ε : Type} {p : Op Req Resp ε α} {f : α → Op Req Resp ε β}
    (hp : p.run.Under A P fun _ => True) (hf : ∀ a, (f a).run.Under A P fun _ => True) :
    (p >>= f).run.Under A P fun _ => True := by
  refine under_bindE.2 (hp.imp ?_)
  rintro (e | a) -
  · trivial
  · exact hf a

end

/-! ### A program alone -/

/-- Run alone against a deterministic service. -/
def eval {σ : Type} (serve : σ → (r : Req) → Resp r × σ) : Prog Req Resp α → σ → Option α × σ
  | ret a, s => (some a, s)
  | call r k, s => (k (serve s r).1).eval serve (serve s r).2
  | stop, s => (none, s)

theorem eval_bind_of_some {σ : Type} {serve : σ → (r : Req) → Resp r × σ} {p : Prog Req Resp α}
    {f : α → Prog Req Resp β} {s s' : σ} {a : α} (h : p.eval serve s = (some a, s')) :
    (p >>= f).eval serve s = (f a).eval serve s' := by
  induction p generalizing s with
  | ret b =>
    cases h
    rfl
  | call r k ih => exact ih _ h
  | stop => cases h

/-- Run against fixed answers: what a program that only reads returns, if what it reads stays. -/
def answer (v : (r : Req) → Resp r) : Prog Req Resp α → Option α
  | ret a => some a
  | call r k => (k (v r)).answer v
  | stop => none

section
variable {v : (r : Req) → Resp r}

@[simp] theorem answer_ret {a : α} : (ret a : Prog Req Resp α).answer v = some a := rfl
@[simp] theorem answer_ask {r : Req} : (ask r : Prog Req Resp _).answer v = some (v r) := rfl
@[simp] theorem answer_call {r : Req} {k : Resp r → Prog Req Resp α} : (call r k).answer v = (k (v r)).answer v := rfl

theorem answer_bind {p : Prog Req Resp α} {f : α → Prog Req Resp β} :
    (p >>= f).answer v = (p.answer v).bind fun a => (f a).answer v := by
  induction p with
  | ret a => rfl
  | call r k ih => simp only [call_bind, answer_call, ih]
  | stop => rfl

end

/-- Run alone against a service that may answer in several ways. -/
inductive Runs {σ : Type} (exec : σ → (r : Req) → Resp r → σ → Prop) : Prog Req Resp α → σ → α → σ → Prop where
  | ret {a : α} {s : σ} : Runs exec (ret a) s a s
  | call {r : Req} {k : Resp r → Prog Req Resp α} {s s' s'' : σ} {x : Resp r} {a : α}
      (hx : exec s r x s') (hk : Runs exec (k x) s' a s'') : Runs exec (call r k) s a s''

section
variable {σ : Type} {exec : σ → (r : Req) → Resp r → σ → Prop} {s s' : σ} {p : Prog Req Resp α}

@[simp] theorem runs_ret {a b : α} : Runs exec (ret a) s b s' ↔ b = a ∧ s' = s := by
  constructor
  · rintro ⟨⟩
    exact ⟨rfl, rfl⟩
  · rintro ⟨rfl, rfl⟩
    exact .ret

theorem runs_call {r : Req} {k : Resp r → Prog Req Resp α} {a : α} :
    Runs exec (call r k) s a s' ↔ ∃ x u, exec s r x u ∧ Runs exec (k x) u a s' := by
  constructor
  · rintro (_ | ⟨hx, hk⟩)
    exact ⟨_, _, hx, hk⟩
  · rintro ⟨x, u, hx, hk⟩
    exact .call hx hk

@[simp] theorem not_runs_stop {a : α} : ¬ Runs exec (stop : Prog Req Resp α) s a s' := nofun

/-- A program runs one part after the other. -/
theorem runs_bind {f : α → Prog Req Resp β} {b : β} :
    Runs exec (p >>= f) s b s' ↔ ∃ a u, Runs exec p s a u ∧ Runs exec (f a) u b s' := by
  induction p generalizing s with
  | ret a => simp [and_assoc]
  | call r k ih =>
    simp only [call_bind, runs_call, ih]
    constructor
    · rintro ⟨x, u, hx, a, v, hk, hf⟩
      exact ⟨a, v, ⟨x, u, hx, hk⟩, hf⟩
    · rintro ⟨a, v, ⟨x, u, hx, hk⟩, hf⟩
      exact ⟨x, u, hx, a, v, hk, hf⟩
  | stop => simp

/-- An operation that succeeded ran each of its parts successfully. -/
theorem runs_bindE {ε : Type} {x : Op Req Resp ε α} {f : α → Op Req Resp ε β} {b : β} :
    Runs exec (x >>= f).run s (.ok b) s' ↔
      ∃ a u, Runs exec x.run s (.ok a) u ∧ Runs exec (f a).run u (.ok b) s' := by
  rw [ExceptT.run_bind, runs_bind]
  constructor
  · rintro ⟨e | a, u, hx, hf⟩
    · cases (runs_ret.1 hf).1
    · exact ⟨a, u, hx, hf⟩
  · rintro ⟨a, u, hx, hf⟩
    exact ⟨.ok a, u, hx, hf⟩

/-- What every request of a program keeps, its run keeps. -/
theorem Runs.keep {P : Req → Prop} {Q : α → Prop} {J : σ → Prop} {a : α} (hr : Runs exec p s a s')
    (hp : p.Every P Q) (hJ : ∀ s r x s', J s → P r → exec s r x s' → J s') (hs : J s) : J s' ∧ Q a := by
  induction hr with
  | ret => exact ⟨hs, hp⟩
  | call hx _ ih => exact ih (hp.2 _) (hJ _ _ _ _ hs hp.1 hx)

/-- A service that may do what a function does. -/
theorem runs_of_eval {serve : σ → (r : Req) → Resp r × σ} (hx : ∀ s r, exec s r (serve s r).1 (serve s r).2) {a : α}
    (h : p.eval serve s = (some a, s')) : Runs exec p s a s' := by
  induction p generalizing s with
  | ret b =>
    cases h
    exact .ret
  | call r k ih => exact .call (hx s r) (ih _ h)
  | stop => cases h

/-- A service that does what a function does, and nothing else. -/
theorem eval_of_runs {serve : σ → (r : Req) → Resp r × σ} (hx : ∀ s r x s', exec s r x s' → serve s r = (x, s')) {a : α}
    (h : Runs exec p s a s') : p.eval serve s = (some a, s') := by
  induction h with
  | ret => rfl
  | call hr _ ih =>
    have hs := hx _ _ _ _ hr
    rw [eval, hs, ih]

end

end Prog

namespace Op

variable {Req : Type} {Resp : Req → Type} {ε ε' α β : Type}

/-- Ask one request. -/
def ask (r : Req) : Op Req Resp ε (Resp r) := ExceptT.lift (Prog.ask r)

/-- A client that asks nothing more and never returns. -/
def stop : Op Req Resp ε α := ExceptT.mk .stop

/-- Run an operation and look at how it ended. -/
def attempt (x : Op Req Resp ε' α) : Op Req Resp ε (Except ε' α) := ExceptT.lift x.run

@[simp] theorem run_ask (r : Req) : (ask r : Op Req Resp ε _).run = .call r fun x => .ret (.ok x) := rfl

@[simp] theorem run_ask_bind (r : Req) (f : Resp r → Op Req Resp ε β) :
    (ask r >>= f).run = .call r fun x => (f x).run := rfl

@[simp] theorem run_attempt_bind (x : Op Req Resp ε' α) (f : Except ε' α → Op Req Resp ε β) :
    (attempt x >>= f).run = x.run >>= fun r => (f r).run := by
  rw [attempt, ExceptT.run_bind, ExceptT.run_lift, ← bind_pure_comp, bind_assoc]
  rfl

theorem every_ask_bind {P : Req → Prop} {Q : Except ε β → Prop} {r : Req} {f : Resp r → Op Req Resp ε β} :
    (ask r >>= f).run.Every P Q ↔ P r ∧ ∀ x, (f x).run.Every P Q := Iff.rfl

theorem every_attempt_bind {P : Req → Prop} {x : Op Req Resp ε' α} {f : Except ε' α → Op Req Resp ε β}
    (hx : x.run.Every P fun _ => True) (hf : ∀ r, (f r).run.Every P fun _ => True) :
    (attempt x >>= f).run.Every P fun _ => True := by
  rw [run_attempt_bind, Prog.every_bind]
  exact hx.imp fun r _ => hf r

theorem under_ask_bind {A : (r : Req) → Resp r → Prop} {P : Req → Prop} {Q : Except ε β → Prop} {r : Req}
    {f : Resp r → Op Req Resp ε β} :
    (ask r >>= f).run.Under A P Q ↔ P r ∧ ∀ x, A r x → (f x).run.Under A P Q := Iff.rfl

theorem under_attempt_bind {A : (r : Req) → Resp r → Prop} {P : Req → Prop} {Q : Except ε β → Prop}
    {x : Op Req Resp ε' α} {f : Except ε' α → Op Req Resp ε β} :
    (attempt x >>= f).run.Under A P Q ↔ x.run.Under A P fun r => (f r).run.Under A P Q := by
  rw [run_attempt_bind, Prog.under_bind]

theorem attempt_ask_bind (r : Req) (g : Resp r → Op Req Resp ε' α) (f : Except ε' α → Op Req Resp ε β) :
    attempt (ask r >>= g) >>= f = ask r >>= fun x => attempt (g x) >>= f := by
  refine ExceptT.ext ?_
  rw [run_attempt_bind, run_ask_bind, run_ask_bind, Prog.call_bind]
  simp only [run_attempt_bind]

/-- A failure that is not looked at is passed on. -/
theorem bind_eq_attempt (x : Op Req Resp ε α) (f : α → Op Req Resp ε β) :
    x >>= f = attempt x >>= fun r => match r with
      | .ok a => f a
      | .error e => throw e := by
  refine ExceptT.ext ?_
  rw [run_attempt_bind, ExceptT.run_bind]
  refine congrArg (x.run >>= ·) (funext fun r => ?_)
  cases r <;> rfl

@[simp] theorem attempt_pure_bind (a : α) (f : Except ε' α → Op Req Resp ε β) :
    attempt (pure a) >>= f = f (.ok a) := by
  refine ExceptT.ext ?_
  rw [run_attempt_bind]
  rfl

@[simp] theorem attempt_throw_bind (e : ε') (f : Except ε' α → Op Req Resp ε β) :
    attempt (throw e) >>= f = f (.error e) := by
  refine ExceptT.ext ?_
  rw [run_attempt_bind]
  rfl

/-- An operation of fixed answers returns what its parts return, one after the other. -/
theorem answer_bind_ok {v : (r : Req) → Resp r} {x : Op Req Resp ε α} {f : α → Op Req Resp ε β} {b : β} :
    (x >>= f).run.answer v = some (.ok b) ↔
      ∃ a, x.run.answer v = some (.ok a) ∧ (f a).run.answer v = some (.ok b) := by
  rw [ExceptT.run_bind, Prog.answer_bind]
  constructor
  · intro h
    obtain ⟨r, hr, hb⟩ := Option.bind_eq_some_iff.1 h
    cases r with
    | ok a => exact ⟨a, hr, hb⟩
    | error e => cases hb
  · rintro ⟨a, ha, hb⟩
    rw [ha]
    exact hb

/-- An operation of fixed answers goes on after a part of it. -/
theorem answer_bind_of_ok {v : (r : Req) → Resp r} {x : Op Req Resp ε α} {f : α → Op Req Resp ε β} {a : α}
    (h : x.run.answer v = some (.ok a)) : (x >>= f).run.answer v = (f a).run.answer v := by
  rw [ExceptT.run_bind, Prog.answer_bind, h]
  rfl

/-- An operation of fixed answers fails where a part of it does. -/
theorem answer_bind_error {v : (r : Req) → Resp r} {x : Op Req Resp ε α} {f : α → Op Req Resp ε β} {e : ε}
    (h : x.run.answer v = some (.error e)) : (x >>= f).run.answer v = some (.error e) := by
  rw [ExceptT.run_bind, Prog.answer_bind, h]
  rfl

theorem eval_bind_of_ok {σ : Type} {serve : σ → (r : Req) → Resp r × σ} {x : Op Req Resp ε α}
    {f : α → Op Req Resp ε β} {s s' : σ} {a : α} (h : x.run.eval serve s = (some (.ok a), s')) :
    (x >>= f).run.eval serve s = (f a).run.eval serve s' := by
  rw [ExceptT.run_bind, Prog.eval_bind_of_some h]

@[simp] theorem run_stop : (stop : Op Req Resp ε α).run = .stop := rfl

@[simp] theorem run_pure (a : α) : (pure a : Op Req Resp ε α).run = .ret (.ok a) := rfl

@[simp] theorem run_throw (e : ε) : (throw e : Op Req Resp ε α).run = .ret (.error e) := rfl

end Op

end Conc
