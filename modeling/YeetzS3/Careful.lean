import YeetzS3.Conc.Ends
import YeetzS3.Region

/-!
# Reads that may fail

A program that only reads, on a backend that may fail a request, returns what it returns on one that does not, or the
failure of the first request that was not answered. `Careful` says so request by request.
-/

namespace YeetzS3

open Conc

variable {ε ε' α β : Type}

/-- Each answer is the one in full, or the program returns a failure of `bad` at once. -/
def Careful (bad : ε → Prop) (B : Backend) (s : Store) : Prog Req Resp (Except ε α) → Prop
  | .ret _ => True
  | .call r k => (∀ x t, B.exec s r x t → t = s ∧ (k x = k (s.answers r) ∨ B.faults ∧ ∃ e, bad e ∧ k x = .ret (.error e))) ∧
      Careful bad B s (k (s.answers r))
  | .stop => True

/-- The result in full, or a failure of `bad`. -/
def InFull (bad : ε → Prop) (B : Backend) (r r' : Except ε α) : Prop := r' = r ∨ B.faults ∧ ∃ e, bad e ∧ r' = .error e

section
variable {bad : ε → Prop} {bad' : ε' → Prop} {B : Backend} {s t : Store} {p : Prog Req Resp (Except ε α)} {r : Except ε α}

theorem Careful.ends (h : Careful bad B s p) (hr : p.answer s.answers = some r) :
    p.Ends B.exec (fun r' t => t = s ∧ InFull bad B r r') s := by
  induction p with
  | ret a =>
    cases hr
    exact ⟨rfl, .inl rfl⟩
  | call q k ih =>
    intro x t hx
    obtain ⟨rfl, hk | ⟨hf, e, he, hk⟩⟩ := h.1 x t hx
    · rw [hk]
      exact ih _ h.2 hr
    · rw [hk]
      exact ⟨rfl, .inr ⟨hf, e, he, rfl⟩⟩
  | stop => cases hr

theorem careful_bindE {x : StoreOp ε α} {f : α → StoreOp ε β} (hx : Careful bad B s x.run)
    (hf : ∀ a, x.run.answer s.answers = some (.ok a) → Careful bad B s (f a).run) : Careful bad B s (x >>= f).run := by
  rw [ExceptT.run_bind]
  generalize x.run = p at hx hf
  induction p with
  | ret a =>
    cases a with
    | error e => trivial
    | ok a => exact hf a rfl
  | call q k ih =>
    refine ⟨fun y t hy => ?_, ih _ hx.2 hf⟩
    obtain ⟨rfl, he | ⟨hF, e, hb, he⟩⟩ := hx.1 y t hy
    · exact ⟨rfl, .inl (congrArg (Prog.bind · _) he)⟩
    · exact ⟨rfl, .inr ⟨hF, e, hb, congrArg (Prog.bind · _) he⟩⟩
  | stop => trivial

/-- A get whose failures are given up on. -/
theorem careful_get {path : Str} {f : Except StoreError (Bytes × Option Etag) → StoreOp ε α}
    (hfail : ∃ e, bad e ∧ f (.error .failed) = throw e)
    (htag : ∀ d e, s.found (pathFrom path) = .ok (d, some e) → f (.ok (d, none)) = f (.ok (d, some e)) ∨ ∃ e', bad e' ∧ f (.ok (d, none)) = throw e')
    (hf : Careful bad B s (f (s.found (pathFrom path))).run) : Careful bad B s (Op.ask (.get path) >>= f).run := by
  refine ⟨fun x t hx => ?_, hf⟩
  obtain ⟨rfl, rfl | ⟨hF, rfl | ⟨d, e, hd, rfl⟩⟩⟩ := hx
  · exact ⟨rfl, .inl rfl⟩
  · obtain ⟨e, hb, he⟩ := hfail
    refine ⟨rfl, .inr ⟨hF, e, hb, ?_⟩⟩
    show (f (.error .failed)).run = _
    rw [he, Op.run_throw]
  · refine ⟨rfl, ?_⟩
    rcases htag d e hd with he | ⟨e', hb, he⟩
    · left
      show (f (.ok (d, none))).run = (f (t.found (pathFrom path))).run
      rw [he, hd]
    · right
      refine ⟨hF, e', hb, ?_⟩
      show (f (.ok (d, none))).run = _
      rw [he, Op.run_throw]

/-- A list whose failure is given up on, on a backend whose lists are honest. -/
theorem careful_list (ho : ¬ B.omits) {pfx : Str} {after : Option Str} {n : ℕ} {f : Except StoreError (List Str) → StoreOp ε α}
    (hfail : ∃ e, bad e ∧ f (.error .failed) = throw e) (hf : Careful bad B s (f (s.answers (.list pfx after n))).run) :
    Careful bad B s (Op.ask (.list pfx after n) >>= f).run := by
  refine ⟨fun x t hx => ?_, hf⟩
  obtain ⟨rfl, rfl | ⟨ho', -⟩ | ⟨hF, rfl⟩⟩ := hx
  · exact ⟨rfl, .inl rfl⟩
  · exact absurd ho' ho
  · obtain ⟨e, hb, he⟩ := hfail
    refine ⟨rfl, .inr ⟨hF, e, hb, ?_⟩⟩
    show (f (.error .failed)).run = _
    rw [he, Op.run_throw]

end

end YeetzS3
