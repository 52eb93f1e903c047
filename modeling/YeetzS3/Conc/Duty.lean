import YeetzS3.Conc.Rely
import YeetzS3.Conc.Play

/-!
# Duties of calls

A weaker rule than `Reach.sound`, for invariants of the state alone: each call is bound to requests of one kind,
given that the service's answers are of another, and every request of its kind keeps the invariant and is answered
so. `Reach.obeys` then says of every step which call made it, that it was of that call's kind, and that the
invariant held before it.
-/

namespace Conc

variable {σ Req : Type} {Resp : Req → Type} {Call : Type} {Res : Call → Type}

/-- Call `t` was made as `c`. -/
def Hist.Started (h : Hist σ Req Resp Call Res) (t : ℕ) (c : Call) : Prop := ∃ e, h.At t e ∧ e.label = .start c

variable {h h' : Hist σ Req Resp Call Res} {i t : ℕ} {c c' : Call} {r : Req} {x : Resp r}

theorem Hist.Started.mono (hh : h ≤ h') (hs : h.Started t c) : h'.Started t c :=
  let ⟨e, he, hl⟩ := hs
  ⟨e, Hist.at_mono hh he, hl⟩

/-- A call is made once. -/
theorem Hist.Started.inj (hs : h.Started t c) (hs' : h.Started t c') : c = c' := by
  obtain ⟨e, he, hl⟩ := hs
  obtain ⟨e', he', hl'⟩ := hs'
  rw [Hist.At, he] at he'
  cases he'
  rw [hl] at hl'
  exact Label.start.inj hl'

/-- A request of the longer history is one of the shorter, or the last step. -/
theorem Hist.Asked.of_push {l : Label Req Resp Call Res} {s : σ} (ha : (h.push l s).Asked i t r x) :
    h.Asked i t r x ∨ i = h.now ∧ l = .ask t r x := by
  obtain ⟨e, he, hl⟩ := ha
  rcases Hist.at_push.1 he with he | ⟨hi, rfl⟩
  · exact .inl ⟨e, he, hl⟩
  · exact .inr ⟨hi, hl⟩

/-- A schedule starts the calls it names. -/
theorem World.started_play (prog : (c : Call) → Prog Req Resp (Res c)) (serve : σ → (r : Req) → Resp r × σ) (s : σ)
    (ms ms' : List (Move Call)) (c : Call) :
    (World.play prog serve s (ms ++ .start c :: ms')).hist.Started (World.play prog serve s ms).hist.now c := by
  have hle : ∀ (ms : List (Move Call)) (w : World σ Req Resp Call Res), w.hist ≤ (ms.foldl (World.move prog serve) w).hist := by
    intro ms
    induction ms with
    | nil => exact fun w => le_refl w.hist
    | cons m ms ih =>
      refine fun w => le_trans ?_ (ih _)
      cases m with
      | start c => exact Hist.le_push
      | step t =>
        simp only [World.move]
        split
        · exact Hist.le_push
        · exact Hist.le_push
        · exact le_refl w.hist
        · exact le_refl w.hist
  rw [World.play, List.foldl_append, List.foldl_cons]
  exact Hist.Started.mono (hle ms' _) ⟨_, Hist.at_push_now, rfl⟩

variable {S : System σ Req Resp Call Res} {w : World σ Req Resp Call Res}

/-- What the steps of a run obey, when every call does its duty. -/
structure Obeys (S : System σ Req Resp Call Res) (J : σ → Prop) (A : (r : Req) → Resp r → Prop)
    (P : Call → Req → Prop) (w : World σ Req Resp Call Res) : Prop where
  state : J w.hist.store
  live : ∀ t th, w.live t = some th → w.hist.Started t th.call ∧ th.rest.Under A (P th.call) fun _ => True
  asked : ∀ {i t r x}, w.hist.Asked i t r x → ∃ c, w.hist.Started t c ∧ P c r ∧ J (w.hist.storeAt i) ∧
    S.exec (w.hist.storeAt i) r x (w.hist.storeAt (i + 1))

/-- What a step that has happened obeys is not changed by what happens after it. -/
theorem Obeys.older {J : σ → Prop} {A : (r : Req) → Resp r → Prop} {P : Call → Req → Prop} (ho : Obeys S J A P w)
    {l : Label Req Resp Call Res} {s : σ} (ha : w.hist.Asked i t r x) :
    ∃ c, (w.hist.push l s).Started t c ∧ P c r ∧ J ((w.hist.push l s).storeAt i) ∧
      S.exec ((w.hist.push l s).storeAt i) r x ((w.hist.push l s).storeAt (i + 1)) := by
  obtain ⟨c, hs, hp, hJ, hx⟩ := ho.asked ha
  have hlt := ha.lt
  rw [Hist.storeAt_mono Hist.le_push hlt.le, Hist.storeAt_mono Hist.le_push hlt]
  exact ⟨c, hs.mono Hist.le_push, hp, hJ, hx⟩

/-- The rule for duties. -/
theorem Reach.obeys {J : σ → Prop} {A : (r : Req) → Resp r → Prop} {P : Call → Req → Prop}
    (hinit : ∀ s, S.init s → J s) (hprog : ∀ c, (S.prog c).Under A (P c) fun _ => True)
    (hexec : ∀ c s r x s', J s → P c r → S.exec s r x s' → J s' ∧ A r x) (hw : Reach S w) : Obeys S J A P w := by
  induction hw with
  | init h => exact ⟨hinit _ h, by simp, fun ⟨_, he, _⟩ => absurd he Hist.not_at_empty⟩
  | @start w hw c ih =>
    refine ⟨by simpa using ih.state, fun t th hth => ?_, fun {i t r x} ha => ?_⟩
    · simp only [Function.update_apply] at hth
      split at hth
      · next hte =>
        cases hth
        exact ⟨⟨_, hte ▸ Hist.at_push_now, rfl⟩, hprog c⟩
      · exact ⟨(ih.live t th hth).1.mono Hist.le_push, (ih.live t th hth).2⟩
    · rcases ha.of_push with ha | ⟨-, hl⟩
      · exact ih.older ha
      · cases hl
  | @ask w hw t c r k hlt x s hx ih =>
    obtain ⟨hs, hp, hk⟩ := ih.live t _ hlt
    obtain ⟨hJ, hA⟩ := hexec c _ r x s ih.state hp hx
    refine ⟨by simpa using hJ, fun t' th hth => ?_, fun {i t' r' x'} ha => ?_⟩
    · simp only [Function.update_apply] at hth
      split at hth
      · next hte =>
        subst hte
        cases hth
        exact ⟨hs.mono Hist.le_push, hk x hA⟩
      · exact ⟨(ih.live t' th hth).1.mono Hist.le_push, (ih.live t' th hth).2⟩
    · rcases ha.of_push with ha | ⟨rfl, hl⟩
      · exact ih.older ha
      · cases hl
        refine ⟨c, hs.mono Hist.le_push, hp, ?_, ?_⟩
        · rw [Hist.push_storeAt_now]
          exact ih.state
        · rw [Hist.push_storeAt_now, ← Hist.push_now (l := .ask t r x) (s := s), Hist.storeAt_now, Hist.push_store]
          exact hx
  | @done w hw t c res hlt ih =>
    refine ⟨by simpa using ih.state, fun t' th hth => ?_, fun {i t' r x} ha => ?_⟩
    · simp only [Function.update_apply] at hth
      split at hth
      · cases hth
      · exact ⟨(ih.live t' th hth).1.mono Hist.le_push, (ih.live t' th hth).2⟩
    · rcases ha.of_push with ha | ⟨-, hl⟩
      · exact ih.older ha
      · cases hl

/-! ### Calls that are quiet at first -/

namespace Prog

variable {α β ε ε' : Type} {P : Req → Prop}

/-- Every request satisfies `P`, up to one behind which every result satisfies `Q`. -/
def Until (P : Req → Prop) (Q : α → Prop) : Prog Req Resp α → Prop
  | ret _ => True
  | call r k => (P r ∧ ∀ x, (k x).Until P Q) ∨ ∀ x, (k x).Every (fun _ => True) Q
  | stop => True

theorem until_of_every {Q : α → Prop} {p : Prog Req Resp α} (h : p.Every P fun _ => True) : p.Until P Q := by
  induction p with
  | ret a => trivial
  | call r k ih => exact .inl ⟨h.1, fun x => ih x (h.2 x)⟩
  | stop => trivial

theorem until_of_always {Q : α → Prop} {p : Prog Req Resp α} (h : p.Every (fun _ => True) Q) : p.Until P Q := by
  cases p with
  | ret a => trivial
  | call r k => exact .inr h.2
  | stop => trivial

theorem until_bind {Q : β → Prop} {p : Prog Req Resp α} {f : α → Prog Req Resp β} (h : p.Every P fun a => (f a).Until P Q) :
    (p >>= f).Until P Q := by
  induction p with
  | ret a => exact h
  | call r k ih => exact .inl ⟨h.1, fun x => ih x (h.2 x)⟩
  | stop => trivial

theorem until_bindE {Q : Except ε β → Prop} {p : Op Req Resp ε α} {f : α → Op Req Resp ε β} (hp : p.run.Every P fun _ => True)
    (hf : ∀ a, (f a).run.Until P Q) : (p >>= f).run.Until P Q := by
  rw [ExceptT.run_bind]
  refine until_bind (hp.imp ?_)
  rintro (e | a) -
  · trivial
  · exact hf a

theorem until_attempt_bind {Q : Except ε β → Prop} {p : Op Req Resp ε' α} {f : Except ε' α → Op Req Resp ε β}
    (hp : p.run.Every P fun _ => True) (hf : ∀ r, (f r).run.Until P Q) : (Op.attempt p >>= f).run.Until P Q := by
  rw [Op.run_attempt_bind]
  exact until_bind (hp.imp fun r _ => hf r)

end Prog

/-- Requests of one kind leave a call quiet. -/
theorem Safe.quiet {S : System σ Req Resp Call Res} {Inv : Hist σ Req Resp Call Res → Prop} {α : Type} {P : Req → Prop}
    {R : α → Hist σ Req Resp Call Res → Prop} {p : Prog Req Resp α} (hp : p.Every P fun _ => True)
    (hquiet : ∀ i r x, h.Asked i t r x → P r) (hs : Safe S Inv t p R h) :
    Safe S Inv t p (fun a h' => R a h' ∧ ∀ i r x, h'.Asked i t r x → P r) h := by
  refine Safe.frame hp (fun h h' hr hq i r x ha => hq i r x (hr.asked ha)) (fun h r x s hr hq i r' x' ha => ?_) hquiet hs
  rcases ha.of_push with ha | ⟨-, hl⟩
  · exact hq i r' x' ha
  · cases hl
    exact hr

/-- A call that is quiet at first has asked nothing else when its result is not as `Q` says. -/
theorem Safe.until {S : System σ Req Resp Call Res} {Inv : Hist σ Req Resp Call Res → Prop} {α : Type} {P : Req → Prop} {Q : α → Prop}
    {R : α → Hist σ Req Resp Call Res → Prop} {p : Prog Req Resp α} (hp : p.Until P Q) (hquiet : ∀ i r x, h.Asked i t r x → P r)
    (hs : Safe S Inv t p R h) : Safe S Inv t p (fun a h' => R a h' ∧ (Q a ∨ ∀ i r x, h'.Asked i t r x → P r)) h := by
  induction p generalizing h with
  | ret a => exact fun h' hr => ⟨hs h' hr, .inr fun i r x ha => hquiet i r x (hr.asked ha)⟩
  | call r k ih =>
    intro h' hr x s hx
    obtain ⟨hI, hk⟩ := hs h' hr x s hx
    refine ⟨hI, ?_⟩
    rcases hp with ⟨hr', hrest⟩ | hrest
    · refine ih x (hrest x) (fun i r' x' ha => ?_) hk
      rcases ha.of_push with ha | ⟨-, hl⟩
      · exact hquiet i r' x' (hr.asked ha)
      · cases hl
        exact hr'
    · exact (hk.and_every (hrest x)).imp fun a _ _ _ ha => ⟨ha.1, .inl ha.2⟩
  | stop => trivial

end Conc
