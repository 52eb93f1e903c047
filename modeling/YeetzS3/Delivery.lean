import YeetzS3.Region
import YeetzS3.Conc.Law
import YeetzS3.Lifecycle

/-!
# Requests that are sent again

A client that sends a request again when no answer came back finds its own effect in the way: a put that landed fails its
condition, a conditional delete finds nothing. `Backend.delivers` is what such a client may see; on a backend that fails
nothing it is `Backend.exec`. Below it, what a law says of programs of such requests.
-/

namespace YeetzS3

open Conc

/-- The request took effect, was sent again, and was refused for its own effect. -/
def Backend.Resent (B : Backend) (s : Store) : (r : Req) → Resp r → Store → Prop
  | .put p d c, x, s' => x = .error .preconditionFailed ∧ s.accepts (pathFrom p) c = true ∧
      ∃ e, B.tags d e ∧ s' = s.insert (pathFrom p) ⟨d, e⟩
  | .deleteIf p e, x, s' => x = .error .notFound ∧ s.accepts p (some e) = true ∧ s' = s.erase p
  | .get _, _, _ | .delete _, _, _ | .deleteObjects _, _, _ | .list _ _ _, _, _ | .listSizes _ _ _, _, _ => False

/-- What a client may see that sends a request again when its answer was lost. -/
def Backend.delivers (B : Backend) (s : Store) (r : Req) (x : Resp r) (s' : Store) : Prop :=
  B.exec s r x s' ∨ B.faults ∧ B.Resent s r x s'

section
variable {B : Backend} {s s' : Store} {r : Req} {x : Resp r} {p : Str} {d : Bytes} {R R' : Region}

namespace Backend

/-- A request that only reads is not told apart from its repetition. -/
theorem exec_of_looks (hr : r.Looks) (h : B.delivers s r x s') : B.exec s r x s' := by
  refine h.resolve_right ?_
  rintro ⟨-, h⟩
  cases r with
  | get _ | list _ _ _ | listSizes _ _ _ => exact h
  | _ => exact hr

theorem looks_store (hr : r.Looks) (h : B.delivers s r x s') : s' = s := by
  have hx := exec_of_looks hr h
  cases r with
  | get _ => exact get_store hx
  | list _ _ _ => exact list_store hx
  | listSizes _ _ _ => exact listSizes_store hx
  | _ => exact hr.elim

/-- A put leaves the bucket as it is or lands. -/
theorem delivers_put {c : Option Etag} {x} (h : B.delivers s (.put p d c) x s') :
    s' = s ∨ s.accepts (pathFrom p) c = true ∧ ∃ t, B.tags d t ∧ s' = s.insert (pathFrom p) ⟨d, t⟩ := by
  rcases h with h | ⟨-, -, ha, t, ht, hs⟩
  · exact put_store h
  · exact .inr ⟨ha, t, ht, hs⟩

theorem delivers_put_ok {c e : Option Etag} (h : B.delivers s (.put p d c) (.ok e) s') :
    s.accepts (pathFrom p) c = true ∧
      ∃ t, B.tags d t ∧ s' = s.insert (pathFrom p) ⟨d, t⟩ ∧ ∀ t', e = some t' → t' = t := by
  rcases h with h | ⟨-, h, -⟩
  · exact put_ok h
  · cases h

theorem delivers_put_failed {c : Option Etag} {e : StoreError} (h : B.delivers s (.put p d c) (.error e) s')
    (he : e ≠ .preconditionFailed) : B.faults := by
  rcases h with h | ⟨hf, -⟩
  · exact put_failed h he
  · exact hf

theorem delivers_delete {x} (h : B.delivers s (.delete p) x s') : s' = s ∨ s' = s.erase (pathFrom p) := by
  rcases h with h | ⟨-, h⟩
  · exact delete_store h
  · exact h.elim

theorem delivers_deleteIf {e : Etag} {x} (h : B.delivers s (.deleteIf p e) x s') :
    s' = s ∨ (∃ o, s.lookup p = some o ∧ o.etag = e) ∧ s' = s.erase p := by
  rcases h with h | ⟨-, -, ha, hs⟩
  · exact deleteIf_store h
  · exact .inr ⟨Store.accepts_some.1 ha, hs⟩

theorem delivers_tagged (h : B.delivers s r x s') (ht : s.Tagged B) : s'.Tagged B := by
  rcases h with h | ⟨-, h⟩
  · exact exec_tagged h ht
  · cases r with
    | put p d c =>
      obtain ⟨-, -, e, he, rfl⟩ := h
      exact ht.insert he
    | deleteIf p e =>
      obtain ⟨-, -, rfl⟩ := h
      exact ht.erase
    | _ => exact h.elim

theorem answers_of_delivers (ht : s.Tagged B) (h : B.delivers s r x s') : B.Answers r x := by
  rcases h with h | ⟨-, h⟩
  · exact answers_of_exec ht h
  · cases r with
    | put p d c =>
      obtain ⟨rfl, -⟩ := h
      intro e he
      cases he
    | deleteIf p e => trivial
    | _ => exact h.elim

end Backend

/-- A request changes nothing outside its region. -/
theorem Req.Within.delivers_frame (hw : r.Within R) (hd : ∀ p, R p → ¬ R' p) (h : B.delivers s r x s') : Agree R' s s' := by
  rcases h with h | ⟨-, h⟩
  · exact hw.frame hd h
  · cases r with
    | put p d c =>
      obtain ⟨-, -, e, -, rfl⟩ := h
      exact .of_insert (hd _ hw)
    | deleteIf p e =>
      obtain ⟨-, -, rfl⟩ := h
      exact .of_erase (hd _ hw)
    | _ => exact h.elim

/-- The honest backend with content etags delivers what it serves. -/
theorem Backend.delivers_honest (s : Store) (r : Req) :
    Backend.honest.delivers s r (s.serve contentTag r).1 (s.serve contentTag r).2 := .inl (exec_honest s r)

end

/-! ### Laws of a bucket -/

/-- The law is about the objects in `R`, and about the etags of all. -/
structure LawOver (B : Backend) (R : Region) (L : Law Store) : Prop where
  tagged : ∀ s, L.Good s → s.Tagged B
  frame : ∀ s s', L.Good s → s'.Tagged B → Agree R s s' → L.Good s' ∧ L.Goes s s'

section
variable {Call : Type} {Res : Call → Type} {S : System Store Req Resp Call Res} {B : Backend} {L : Law Store} {R R' : Region}
  {t : ℕ} {h : History Call Res} {ε α : Type} {s : Store} {r : Req}

/-- What lies apart from the law is let through. -/
theorem LawOver.lets (hL : LawOver B R L) (hs : L.Good s) (hr : r.Within R') (hd : ∀ p, R' p → ¬ R p) :
    L.Lets B.delivers s r := fun _ s' hx =>
  hL.frame s s' hs (Backend.delivers_tagged hx (hL.tagged s hs)) (hr.delivers_frame hd hx)

theorem lets_looks (hs : L.Good s) (hr : r.Looks) : L.Lets B.delivers s r := by
  intro x s' hx
  obtain rfl := Backend.looks_store hr hx
  exact ⟨hs, L.refl _⟩

/-- A put-if-absent is let through when landing in an empty place is. -/
theorem lets_create {p : Str} {d : Bytes} (hs : L.Good s)
    (h : s.lookup (pathFrom p) = none → ∀ e, B.tags d e →
      L.Good (s.insert (pathFrom p) ⟨d, e⟩) ∧ L.Goes s (s.insert (pathFrom p) ⟨d, e⟩)) : L.Lets B.delivers s (.put p d none) := by
  intro x s' hx
  obtain rfl | ⟨ha, e, he, rfl⟩ := Backend.delivers_put hx
  · exact ⟨hs, L.refl _⟩
  · exact h (Store.accepts_none.1 ha) e he

/-- A put under a condition is let through when it is over what it expects. -/
theorem lets_replace {p : Str} {d : Bytes} {e : Etag} (hs : L.Good s)
    (h : ∀ o, s.lookup (pathFrom p) = some o → o.etag = e → ∀ e', B.tags d e' →
      L.Good (s.insert (pathFrom p) ⟨d, e'⟩) ∧ L.Goes s (s.insert (pathFrom p) ⟨d, e'⟩)) : L.Lets B.delivers s (.put p d (some e)) := by
  intro x s' hx
  obtain rfl | ⟨ha, e', he', rfl⟩ := Backend.delivers_put hx
  · exact ⟨hs, L.refl _⟩
  · obtain ⟨o, ho, heq⟩ := Store.accepts_some.1 ha
    exact h o ho heq e' he'

theorem lets_delete {p : Str} (hs : L.Good s) (h : L.Good (s.erase (pathFrom p)) ∧ L.Goes s (s.erase (pathFrom p))) :
    L.Lets B.delivers s (.delete p) := by
  intro x s' hx
  obtain rfl | rfl := Backend.delivers_delete hx
  · exact ⟨hs, L.refl _⟩
  · exact h

/-- A program that only reads breaks no law. -/
theorem Law.safe_looks {p : Prog Req Resp α} {Q : α → Prop} (hS : S.exec = B.delivers) (hp : p.Every Req.Looks Q) :
    Safe S (L.Inv B.delivers) t p (fun a _ => Q a) h :=
  Law.safe_of_every hS (fun _ _ hs hr => lets_looks hs hr) hp

/-- A request that only reads, and what follows it. -/
theorem Law.safe_read {Q : Except ε α → History Call Res → Prop} {f : Resp r → StoreOp ε α} (hS : S.exec = B.delivers) (hr : r.Looks)
    (hk : ∀ h₁, h ≤ h₁ → L.Inv B.delivers h₁ → ∀ x, B.exec h₁.store r x h₁.store →
      L.Inv B.delivers (h₁.push (.ask t r x) h₁.store) →
      Safe S (L.Inv B.delivers) t (f x).run Q (h₁.push (.ask t r x) h₁.store)) :
    Safe S (L.Inv B.delivers) t (Op.ask r >>= f).run Q h := by
  rw [Op.run_ask_bind]
  exact Law.safe_look hS (fun _ _ _ => Backend.looks_store hr) fun h₁ hrely x hx hI =>
    hk h₁ hrely.le hrely.inv x (Backend.exec_of_looks hr hx) hI

end

end YeetzS3
