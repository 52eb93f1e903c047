import YeetzS3.Conc.Rely

/-!
# Laws of runs

A `Law` is a property of every state of a run and a preorder that every step goes along. A property the preorder keeps is
`Stable`: once seen it still holds. What a call has seen at an unknown moment is `Since`. Under a law a program is `Safe`
when each of its requests is let through in the states it can be asked in.
-/

namespace Conc

variable {σ Req : Type} {Resp : Req → Type} {Call : Type} {Res : Call → Type}

/-- `P` holds at some moment from time `n` on. -/
def Hist.Since (h : Hist σ Req Resp Call Res) (n : ℕ) (P : σ → Prop) : Prop := ∃ i, n ≤ i ∧ i ≤ h.now ∧ P (h.storeAt i)

namespace Hist.Since

variable {h h' : Hist σ Req Resp Call Res} {l : Label Req Resp Call Res} {s : σ} {m n : ℕ} {P Q : σ → Prop}

theorem mono (hs : h.Since n P) (hh : h ≤ h') (hm : m ≤ n) : h'.Since m P := by
  obtain ⟨i, hn, hi, hp⟩ := hs
  refine ⟨i, hm.trans hn, hi.trans (now_le hh), ?_⟩
  rwa [storeAt_mono hh hi]

theorem imp (hs : h.Since n P) (hpq : ∀ s, P s → Q s) : h.Since n Q := by
  obtain ⟨i, hn, hi, hp⟩ := hs
  exact ⟨i, hn, hi, hpq _ hp⟩

theorem of_now (hn : n ≤ h.now) (hp : P h.store) : h.Since n P := ⟨h.now, hn, le_rfl, by rwa [storeAt_now]⟩

/-- The state a step began in. -/
theorem of_pre (hn : n ≤ h.now) (hp : P h.store) : (h.push l s).Since n P :=
  (of_now hn hp).mono le_push le_rfl

/-- The state a step led to. -/
theorem of_post (hn : n ≤ h.now) (hp : P s) : (h.push l s).Since n P := by
  refine of_now ?_ ?_
  · rw [push_now]
    omega
  · rwa [push_store]

end Hist.Since

/-- What every state satisfies, and what every step goes along. -/
structure Law (σ : Type) where
  Good : σ → Prop
  Goes : σ → σ → Prop
  refl : ∀ s, Goes s s
  trans : ∀ {s t u}, Goes s t → Goes t u → Goes s u

namespace Law

variable (L : Law σ) (X : σ → (r : Req) → Resp r → σ → Prop)

/-- The invariant of the runs that obey the law. -/
abbrev Inv (h : Hist σ Req Resp Call Res) : Prop := Kept X L.Good L.Goes h

/-- The request does not break the law, whatever the answer is. -/
def Lets (s : σ) (r : Req) : Prop := ∀ x s', X s r x s' → L.Good s' ∧ L.Goes s s'

/-- Once it holds it goes on holding. -/
def Stable (P : σ → Prop) : Prop := ∀ s s', L.Good s → L.Good s' → L.Goes s s' → P s → P s'

variable {L X} {S : System σ Req Resp Call Res} {t : ℕ} {α : Type} {h h' : Hist σ Req Resp Call Res} {r : Req} {n : ℕ}
  {P Q : σ → Prop}

/-- Between two moments a stable property is not lost. -/
theorem Stable.storeAt (hp : L.Stable P) (hI : L.Inv X h) {i j : ℕ} (hij : i ≤ j) (hj : j ≤ h.now) (hi : P (h.storeAt i)) :
    P (h.storeAt j) :=
  hI.rel (R := fun s s' => P s → P s') (fun _ => id) (fun h₁ h₂ => h₂ ∘ h₁) (fun s s' hs hs' hg => hp s s' hs hs' hg) hij hj hi

theorem Stable.store (hp : L.Stable P) (hI : L.Inv X h') (hle : h ≤ h') (hh : P h.store) : P h'.store := by
  rw [Hist.store_eq_storeAt hle] at hh
  rw [← Hist.storeAt_now (h := h')]
  exact hp.storeAt hI (Hist.now_le hle) le_rfl hh

/-- What was seen still holds. -/
theorem Stable.since (hp : L.Stable P) (hI : L.Inv X h) (hs : h.Since n P) : P h.store := by
  obtain ⟨i, -, hi, hpi⟩ := hs
  rw [← Hist.storeAt_now (h := h)]
  exact hp.storeAt hI hi le_rfl hpi

theorem Inv.good_since (hI : L.Inv X h) (hs : h.Since n P) : h.Since n fun s => L.Good s ∧ P s := by
  obtain ⟨i, hn, hi, hp⟩ := hs
  exact ⟨i, hn, hi, hI.stateAt hi, hp⟩

/-- A law that says more. -/
theorem Inv.imp {L' : Law σ} (hI : L'.Inv X h) (hgood : ∀ s, L'.Good s → L.Good s) (hgoes : ∀ s s', L'.Goes s s' → L.Goes s s') :
    L.Inv X h where
  state := hgood _ hI.state
  init := hgood _ hI.init
  steps i e he := by
    obtain ⟨hpre, hpost, hstep⟩ := hI.steps i e he
    exact ⟨hgood _ hpre, hgood _ hpost, hgoes _ _ hstep⟩
  lawful := hI.lawful

/-! ### Requests -/

section
variable {Q : α → Hist σ Req Resp Call Res → Prop} {k : Resp r → Prog Req Resp α}

/-- One request and what follows it. -/
theorem safe_call (hS : S.exec = X) (hlet : ∀ h₁, Rely (L.Inv X) t h h₁ → L.Lets X h₁.store r)
    (hk : ∀ h₁, Rely (L.Inv X) t h h₁ → ∀ x s, X h₁.store r x s → L.Inv X (h₁.push (.ask t r x) s) →
      Safe S (L.Inv X) t (k x) Q (h₁.push (.ask t r x) s)) : Safe S (L.Inv X) t (.call r k) Q h := by
  intro h₁ hr x s hx
  rw [hS] at hx
  obtain ⟨hgood, hgoes⟩ := hlet h₁ hr x s hx
  have hI := hr.inv.ask (t := t) hx hgood hgoes
  exact ⟨hI, hk h₁ hr x s hx hI⟩

/-- A request that changes nothing. -/
theorem safe_look (hS : S.exec = X) (hX : ∀ s x s', X s r x s' → s' = s)
    (hk : ∀ h₁, Rely (L.Inv X) t h h₁ → ∀ x, X h₁.store r x h₁.store → L.Inv X (h₁.push (.ask t r x) h₁.store) →
      Safe S (L.Inv X) t (k x) Q (h₁.push (.ask t r x) h₁.store)) : Safe S (L.Inv X) t (.call r k) Q h := by
  refine safe_call hS (fun h₁ hr x s hx => ?_) fun h₁ hr x s hx hI => ?_
  · obtain rfl := hX _ _ _ hx
    exact ⟨hr.inv.state, L.refl _⟩
  · obtain rfl := hX _ _ _ hx
    exact hk h₁ hr x hx hI

/-- A program whose answers are as `A` says and whose requests are let through from now on. -/
theorem safe_of_under {A : (r : Req) → Resp r → Prop} {P : Req → Prop} {Q : α → Prop} {p : Prog Req Resp α}
    (hS : S.exec = X) (hA : ∀ s r x s', L.Good s → X s r x s' → A r x)
    (hlet : ∀ h₁ r, h ≤ h₁ → L.Inv X h₁ → P r → L.Lets X h₁.store r) (hp : p.Under A P Q) :
    Safe S (L.Inv X) t p (fun a _ => Q a) h := by
  induction p generalizing h with
  | ret a => exact fun _ _ => hp
  | call r k ih =>
    refine safe_call hS (fun h₁ hr => hlet h₁ r hr.le hr.inv hp.1) fun h₁ hr x s hx hI => ?_
    exact ih x (fun h₂ r hle => hlet h₂ r (hr.le.trans (Hist.le_push.trans hle))) (hp.2 x (hA _ _ _ _ hr.inv.state hx))
  | stop => trivial

/-- A program whose requests are let through from now on. -/
theorem safe_of_every_from {P : Req → Prop} {Q : α → Prop} {p : Prog Req Resp α} (hS : S.exec = X)
    (hlet : ∀ h₁ r, h ≤ h₁ → L.Inv X h₁ → P r → L.Lets X h₁.store r) (hp : p.Every P Q) :
    Safe S (L.Inv X) t p (fun a _ => Q a) h :=
  safe_of_under (A := fun _ _ => True) hS (fun _ _ _ _ _ _ => trivial) hlet hp.under

/-- What is safe under a law is safe under one that says more, when its requests keep what more is said. -/
theorem safe_lift {L' : Law σ} {P : Req → Prop} {Q : α → Hist σ Req Resp Call Res → Prop} {p : Prog Req Resp α} (hS : S.exec = X)
    (hgood : ∀ s, L'.Good s → L.Good s) (hgoes : ∀ s s', L'.Goes s s' → L.Goes s s')
    (hkeep : ∀ s r x s', L'.Good s → P r → X s r x s' → L.Good s' → L.Goes s s' → L'.Good s' ∧ L'.Goes s s')
    (hp : p.Every P fun _ => True) (hs : Safe S (L.Inv X) t p Q h) : Safe S (L'.Inv X) t p Q h := by
  have hrely : ∀ {h h' : Hist σ Req Resp Call Res}, Rely (L'.Inv X) t h h' → Rely (L.Inv X) t h h' :=
    fun hr => ⟨hr.le, hr.inv.imp hgood hgoes, hr.others⟩
  induction p generalizing h with
  | ret a => exact fun h' hr => hs h' (hrely hr)
  | call r k ih =>
    intro h₁ hr x s hx
    obtain ⟨hI, hk⟩ := hs h₁ (hrely hr) x s hx
    rw [hS] at hx
    obtain ⟨-, hpost, hstep⟩ := hI.steps _ _ Hist.at_push_now
    obtain ⟨hpost', hstep'⟩ := hkeep _ r x s hr.inv.state hp.1 hx hpost hstep
    exact ⟨hr.inv.ask hx hpost' hstep', ih x (hp.2 x) hk⟩
  | stop => trivial

/-- A program whose requests are let through in every state. -/
theorem safe_of_every {P : Req → Prop} {Q : α → Prop} {p : Prog Req Resp α} (hS : S.exec = X)
    (hlet : ∀ s r, L.Good s → P r → L.Lets X s r) (hp : p.Every P Q) : Safe S (L.Inv X) t p (fun a _ => Q a) h :=
  safe_of_every_from hS (fun _ r _ hI => hlet _ r hI.state) hp

end

/-- The rule for laws. If the law holds at first and every call that starts keeps it, given what the calls that have
returned satisfied, every reachable world obeys it, and every return satisfied its postcondition. -/
theorem reach_upto {Post : (t : ℕ) → (c : Call) → Res c → Hist σ Req Resp Call Res → Prop} {w : World σ Req Resp Call Res}
    (hinit : ∀ s, S.init s → L.Good s)
    (hsafe : ∀ h c, h.push (.start c) h.store ≤ w.hist → L.Inv X h →
      (∀ i t c res, h.Done i t c res → ∃ h', h' ≤ h ∧ h'.now = i ∧ Post t c res h') →
      Safe S (L.Inv X) h.now (S.prog c) (Post h.now c) (h.push (.start c) h.store))
    (hw : Reach S w) :
    L.Inv X w.hist ∧ ∀ i t c res, w.hist.Done i t c res → ∃ h, h ≤ w.hist ∧ h.now = i ∧ Post t c res h := by
  obtain ⟨hI, -, hdone⟩ := @Reach.sound_upto _ _ _ _ _ S w w.hist (L.Inv X) Post (fun s hs => .empty (hinit s hs))
    (fun h c hH hI _ hdone => ⟨hI.start L.refl c, hsafe h c hH hI fun i t c res ⟨e, he, hl⟩ =>
      let ⟨h', hr, hn, hp⟩ := hdone i e t c res he hl
      ⟨h', hr.le, hn, hp⟩⟩) (fun h t c res hI _ => hI.done L.refl t c res) hw le_rfl
  refine ⟨hI, ?_⟩
  rintro i t c res ⟨e, he, hl⟩
  obtain ⟨h, hr, hn, hp⟩ := hdone i e t c res he hl
  exact ⟨h, hr.le, hn, hp⟩

/-- The rule for laws that every call keeps. -/
theorem reach {Post : (t : ℕ) → (c : Call) → Res c → Hist σ Req Resp Call Res → Prop} {w : World σ Req Resp Call Res}
    (hinit : ∀ s, S.init s → L.Good s)
    (hsafe : ∀ h c, L.Inv X h → Safe S (L.Inv X) h.now (S.prog c) (Post h.now c) (h.push (.start c) h.store))
    (hw : Reach S w) :
    L.Inv X w.hist ∧ ∀ i t c res, w.hist.Done i t c res → ∃ h, h ≤ w.hist ∧ h.now = i ∧ Post t c res h :=
  reach_upto hinit (fun h c _ hI _ => hsafe h c hI) hw

end Law

namespace Safe

variable {S : System σ Req Resp Call Res} {Inv : Hist σ Req Resp Call Res → Prop} {t : ℕ} {α β ε ε' : Type}
  {h : Hist σ Req Resp Call Res}

/-- What holds whenever a program returns holds however long it takes to go on. -/
theorem always {p : Prog Req Resp α} {P} (hs : Safe S Inv t p P h) :
    Safe S Inv t p (fun a h' => ∀ h'', Rely Inv t h' h'' → P a h'') h := by
  induction p generalizing h with
  | ret a => exact fun h' hr h'' hr' => hs h'' (hr.trans hr')
  | call r k ih =>
    intro h' hr x s hx
    have hk := hs h' hr x s hx
    exact ⟨hk.1, ih x hk.2⟩
  | stop => trivial

/-- One program after another. -/
theorem seq {p : Prog Req Resp α} {f : α → Prog Req Resp β} {P Q} (hi : Inv h) (hp : Safe S Inv t p P h)
    (hf : ∀ a h', h ≤ h' → Inv h' → P a h' → Safe S Inv t (f a) Q h') : Safe S Inv t (p >>= f) Q h :=
  bind hi (hp.imp fun a h' hle hi' ha => hf a h' hle hi' ha)

/-- One operation after another: it fails where the first fails. -/
theorem seqE {p : Op Req Resp ε α} {f : α → Op Req Resp ε β} {P Q} (hi : Inv h) (hp : Safe S Inv t p.run P h)
    (herr : ∀ e h', h ≤ h' → Inv h' → P (.error e) h' → Q (.error e) h')
    (hok : ∀ a h', h ≤ h' → Inv h' → P (.ok a) h' → Safe S Inv t (f a).run Q h') : Safe S Inv t (p >>= f).run Q h := by
  refine bindE hi (hp.always.imp ?_)
  rintro (e | a) h' hle hi' ha
  · exact fun h'' hr => herr e h'' (hle.trans hr.le) hr.inv (ha h'' hr)
  · exact hok a h' hle hi' (ha h' (Rely.refl hi'))

/-- An operation whose failure is looked at. -/
theorem seqAttempt {p : Op Req Resp ε' α} {f : Except ε' α → Op Req Resp ε β} {P Q} (hi : Inv h) (hp : Safe S Inv t p.run P h)
    (hf : ∀ r h', h ≤ h' → Inv h' → P r h' → Safe S Inv t (f r).run Q h') : Safe S Inv t (Op.attempt p >>= f).run Q h := by
  rw [Op.run_attempt_bind]
  exact seq hi hp hf

/-- An operation that cannot fail. -/
theorem seqLift {p : Prog Req Resp α} {f : α → Op Req Resp ε β} {P Q} (hi : Inv h) (hp : Safe S Inv t p P h)
    (hf : ∀ a h', h ≤ h' → Inv h' → P a h' → Safe S Inv t (f a).run Q h') : Safe S Inv t (ExceptT.lift p >>= f).run Q h := by
  have he : (ExceptT.lift p >>= f).run = p >>= fun a => (f a).run := by
    rw [ExceptT.run_bind, ExceptT.run_lift, ← bind_pure_comp, bind_assoc]
    rfl
  rw [he]
  exact seq hi hp hf

/-- The result of a program, changed. -/
theorem map {p : Op Req Resp ε α} {f : α → β} {P Q} (hi : Inv h) (hp : Safe S Inv t p.run P h)
    (hq : ∀ r h', h ≤ h' → Inv h' → P r h' → Q (r.map f) h') : Safe S Inv t (f <$> p).run Q h := by
  rw [map_eq_pure_bind]
  refine bindE hi (hp.always.imp ?_)
  rintro (e | a) h' hle hi' ha
  · exact fun h'' hr => hq (.error e) h'' (hle.trans hr.le) hr.inv (ha h'' hr)
  · exact fun h'' hr => hq (.ok a) h'' (hle.trans hr.le) hr.inv (ha h'' hr)

end Safe

end Conc
