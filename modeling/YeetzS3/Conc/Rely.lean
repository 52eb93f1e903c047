import YeetzS3.Conc.Run

/-!
# Rely and guarantee over histories

`Safe S Inv t p Q h`: from history `h` on, whatever the other calls do, every request call `t` makes
while it runs `p` keeps the invariant `Inv`, and if `p` returns then `Q` holds of the result and the
history it returns at. The other calls are seen only through `Rely`: the history goes on, `Inv` holds
of it, and none of the new steps is a request of `t`. `Reach.sound` is the rule that turns one `Safe`
proof per call into an invariant of every reachable world.
-/

namespace Conc

variable {σ Req : Type} {Resp : Req → Type} {Call : Type} {Res : Call → Type}

/-- What call `t` knows of the history when it runs again. -/
structure Rely (Inv : Hist σ Req Resp Call Res → Prop) (t : ℕ) (h h' : Hist σ Req Resp Call Res) : Prop where
  le : h ≤ h'
  inv : Inv h'
  others : ∀ i e, h.now ≤ i → h'.At i e → ∀ r x, e.label ≠ .ask t r x

theorem Rely.refl {Inv : Hist σ Req Resp Call Res → Prop} {t : ℕ} {h : Hist σ Req Resp Call Res} (hi : Inv h) :
    Rely Inv t h h :=
  ⟨le_refl _, hi, fun _ _ hn he => absurd (Hist.at_lt he) (Nat.not_lt.2 hn)⟩

theorem Rely.trans {Inv : Hist σ Req Resp Call Res → Prop} {t : ℕ} {h₁ h₂ h₃ : Hist σ Req Resp Call Res}
    (h : Rely Inv t h₁ h₂) (h' : Rely Inv t h₂ h₃) : Rely Inv t h₁ h₃ where
  le := h.le.trans h'.le
  inv := h'.inv
  others i e hn he := by
    rcases Nat.lt_or_ge i h₂.now with hl | hl
    · exact h.others i e hn (Hist.at_of_lt h'.le he hl)
    · exact h'.others i e hl he

/-- Waiting adds no request of one's own. -/
theorem Rely.asked {Inv : Hist σ Req Resp Call Res → Prop} {t i : ℕ} {h h' : Hist σ Req Resp Call Res} {r : Req}
    {x : Resp r} (hr : Rely Inv t h h') (ha : h'.Asked i t r x) : h.Asked i t r x := by
  obtain ⟨e, he, hl⟩ := ha
  rcases Nat.lt_or_ge i h.now with hi | hi
  · exact ⟨e, Hist.at_of_lt hr.le he hi, hl⟩
  · exact absurd hl (hr.others i e hi he r x)

/-- A step that is not a request of `t`. -/
theorem Rely.push {Inv : Hist σ Req Resp Call Res → Prop} {t : ℕ} {h : Hist σ Req Resp Call Res}
    {l : Label Req Resp Call Res} {s : σ} (hi : Inv (h.push l s)) (hl : ∀ r x, l ≠ .ask t r x) :
    Rely Inv t h (h.push l s) where
  le := Hist.le_push
  inv := hi
  others i e hn he := by
    rcases Hist.at_push.1 he with he | ⟨-, rfl⟩
    · exact absurd (Hist.at_lt he) (Nat.not_lt.2 hn)
    · exact hl

/-- Program `p`, run as call `t` from `h` on, keeps `Inv` and returns only into `Q`. -/
def Safe (S : System σ Req Resp Call Res) (Inv : Hist σ Req Resp Call Res → Prop) (t : ℕ) {α : Type} :
    Prog Req Resp α → (α → Hist σ Req Resp Call Res → Prop) → Hist σ Req Resp Call Res → Prop
  | .ret a, Q, h => ∀ h', Rely Inv t h h' → Q a h'
  | .call r k, Q, h => ∀ h', Rely Inv t h h' → ∀ x s, S.exec h'.store r x s →
      Inv (h'.push (.ask t r x) s) ∧ Safe S Inv t (k x) Q (h'.push (.ask t r x) s)
  | .stop, _, _ => True

namespace Safe

variable {S : System σ Req Resp Call Res} {Inv : Hist σ Req Resp Call Res → Prop} {t : ℕ} {α β ε : Type}
  {h h' : Hist σ Req Resp Call Res}

/-- Waiting keeps a call safe. -/
theorem wait {p : Prog Req Resp α} {Q} (hs : Safe S Inv t p Q h) (hr : Rely Inv t h h') :
    Safe S Inv t p Q h' := by
  cases p with
  | ret a => exact fun h₂ hr₂ => hs h₂ (hr.trans hr₂)
  | call r k => exact fun h₂ hr₂ => hs h₂ (hr.trans hr₂)
  | stop => trivial

theorem ret {a : α} {Q} (hQ : ∀ h', Rely Inv t h h' → Q a h') : Safe S Inv t (.ret a : Prog Req Resp α) Q h := hQ

/-- A weaker postcondition. -/
theorem imp {p : Prog Req Resp α} {Q Q' : α → Hist σ Req Resp Call Res → Prop} (hs : Safe S Inv t p Q h)
    (hq : ∀ a h', h ≤ h' → Inv h' → Q a h' → Q' a h') : Safe S Inv t p Q' h := by
  induction p generalizing h with
  | ret a => exact fun h' hr => hq a h' hr.le hr.inv (hs h' hr)
  | call r k ih =>
    intro h' hr x s hx
    have hk := hs h' hr x s hx
    exact ⟨hk.1, ih x hk.2 fun a h'' hl => hq a h'' (hr.le.trans (Hist.le_push.trans hl))⟩
  | stop => trivial

/-- The result of one program is what the next goes on with. -/
theorem bind {p : Prog Req Resp α} {f : α → Prog Req Resp β} {Q : β → Hist σ Req Resp Call Res → Prop}
    (hi : Inv h) (hs : Safe S Inv t p (fun a => Safe S Inv t (f a) Q) h) : Safe S Inv t (p >>= f) Q h := by
  induction p generalizing h with
  | ret a => exact hs h (Rely.refl hi)
  | call r k ih =>
    intro h' hr x s hx
    have hk := hs h' hr x s hx
    exact ⟨hk.1, ih x hk.1 hk.2⟩
  | stop => trivial

/-- What neither waiting nor the program's own kind of request can undo still holds when it returns. -/
theorem frame {P : Req → Prop} {X : Hist σ Req Resp Call Res → Prop} {p : Prog Req Resp α} {Q}
    (hp : p.Every P fun _ => True) (hw : ∀ h h', Rely Inv t h h' → X h → X h')
    (ha : ∀ h r x s, P r → X h → X (h.push (.ask t r x) s)) (hX : X h) (hs : Safe S Inv t p Q h) :
    Safe S Inv t p (fun a h' => Q a h' ∧ X h') h := by
  induction p generalizing h with
  | ret a => exact fun h' hr => ⟨hs h' hr, hw _ _ hr hX⟩
  | call r k ih =>
    intro h' hr x s hx
    have hk := hs h' hr x s hx
    exact ⟨hk.1, ih x (hp.2 x) (ha _ _ _ _ hp.1 (hw _ _ hr hX)) hk.2⟩
  | stop => trivial

/-- How an operation goes on after a result that may be a failure. -/
def AndThen (S : System σ Req Resp Call Res) (Inv : Hist σ Req Resp Call Res → Prop) (t : ℕ)
    (f : α → Op Req Resp ε β) (Q : Except ε β → Hist σ Req Resp Call Res → Prop) :
    Except ε α → Hist σ Req Resp Call Res → Prop
  | .ok a => Safe S Inv t (f a).run Q
  | .error e => Safe S Inv t (.ret (.error e)) Q

theorem bindE {p : Op Req Resp ε α} {f : α → Op Req Resp ε β} {Q} (hi : Inv h)
    (hs : Safe S Inv t p.run (AndThen S Inv t f Q) h) : Safe S Inv t (p >>= f).run Q h := by
  rw [ExceptT.run_bind]
  refine bind hi (hs.imp ?_)
  rintro (e | a) h' - - hq <;> exact hq

/-- A program whose requests all keep the invariant. -/
theorem of_every {P : Req → Prop} {p : Prog Req Resp α} {Q : α → Prop} (hp : p.Every P Q)
    (hk : ∀ h r x s, Inv h → P r → S.exec h.store r x s → Inv (h.push (.ask t r x) s)) :
    Safe S Inv t p (fun a _ => Q a) h := by
  induction p generalizing h with
  | ret a => exact fun _ _ => hp
  | call r k ih =>
    intro h' hr x s hx
    exact ⟨hk h' r x s hr.inv hp.1 hx, ih x (hp.2 x)⟩
  | stop => trivial

/-- What a program returns whatever the answers are. -/
theorem and_every {P : Req → Prop} {p : Prog Req Resp α} {Q : α → Hist σ Req Resp Call Res → Prop} {R : α → Prop}
    (hp : p.Every P R) (hs : Safe S Inv t p Q h) : Safe S Inv t p (fun a h' => Q a h' ∧ R a) h := by
  induction p generalizing h with
  | ret a => exact fun h' hr => ⟨hs h' hr, hp⟩
  | call r k ih =>
    intro h' hr x s hx
    have hk := hs h' hr x s hx
    exact ⟨hk.1, ih x (hp.2 x) hk.2⟩
  | stop => trivial

end Safe

/-! ### Invariants of states and steps -/

/-- A request changes the service as `X` lets it, every other step leaves the service as it is. -/
def Step.Lawful (X : σ → (r : Req) → Resp r → σ → Prop) (e : Step σ Req Resp Call Res) : Prop :=
  match e.label with
  | .ask _ r x => X e.pre r x e.post
  | .start _ => e.post = e.pre
  | .done _ _ _ => e.post = e.pre

/-- Every state of the history satisfies `J`, every step goes along `G`, and every request is served as
`X` says. -/
structure Kept (X : σ → (r : Req) → Resp r → σ → Prop) (J : σ → Prop) (G : σ → σ → Prop)
    (h : Hist σ Req Resp Call Res) : Prop where
  state : J h.store
  init : J h.init
  steps : ∀ i e, h.At i e → J e.pre ∧ J e.post ∧ G e.pre e.post
  lawful : ∀ i e, h.At i e → e.Lawful X

namespace Kept

variable {X : σ → (r : Req) → Resp r → σ → Prop} {J : σ → Prop} {G : σ → σ → Prop}
  {h h' : Hist σ Req Resp Call Res} {l : Label Req Resp Call Res} {s : σ} {t i : ℕ} {r : Req} {x : Resp r}

theorem empty (hs : J s) : Kept X J G (.empty s : Hist σ Req Resp Call Res) where
  state := hs
  init := hs
  steps _ _ he := absurd he Hist.not_at_empty
  lawful _ _ he := absurd he Hist.not_at_empty

theorem push (hk : Kept X J G h) (hJ : J s) (hG : G h.store s) (hl : Step.Lawful X ⟨l, h.store, s⟩) :
    Kept X J G (h.push l s) where
  state := by rwa [Hist.push_store]
  init := hk.init
  steps i e he := by
    rcases Hist.at_push.1 he with he | ⟨-, rfl⟩
    · exact hk.steps i e he
    · exact ⟨hk.state, hJ, hG⟩
  lawful i e he := by
    rcases Hist.at_push.1 he with he | ⟨-, rfl⟩
    · exact hk.lawful i e he
    · exact hl

/-- One more request. -/
theorem ask (hk : Kept X J G h) (hx : X h.store r x s) (hJ : J s) (hG : G h.store s) :
    Kept X J G (h.push (.ask t r x) s) := hk.push hJ hG hx

/-- One more call. -/
theorem start (hk : Kept X J G h) (hr : ∀ s, G s s) (c : Call) : Kept X J G (h.push (.start c) h.store) :=
  hk.push hk.state (hr _) rfl

/-- One call less. -/
theorem done (hk : Kept X J G h) (hr : ∀ s, G s s) (t : ℕ) (c : Call) (res : Res c) :
    Kept X J G (h.push (.done t c res) h.store) := hk.push hk.state (hr _) rfl

/-- What the service did on a request. -/
theorem exec (hk : Kept X J G h) (ha : h.Asked i t r x) : X (h.storeAt i) r x (h.storeAt (i + 1)) := by
  obtain ⟨e, he, hl⟩ := ha
  have hlaw := hk.lawful i e he
  rw [Step.Lawful, hl] at hlaw
  rwa [Hist.storeAt_pre he, Hist.storeAt_post he]

/-- A step that changes the service is a request. -/
theorem asked_of_ne (hk : Kept X J G h) (hi : i < h.now) (hne : h.storeAt (i + 1) ≠ h.storeAt i) :
    ∃ t r x, h.Asked i t r x := by
  have he : h.At i h.steps[i] := List.getElem?_eq_getElem hi
  have hlaw := hk.lawful i _ he
  rw [Hist.storeAt_pre he, Hist.storeAt_post he] at hne
  rw [Step.Lawful] at hlaw
  split at hlaw
  · next t r x hl => exact ⟨t, r, x, _, he, hl⟩
  · exact absurd hlaw hne
  · exact absurd hlaw hne

theorem stateAt (hk : Kept X J G h) {i : ℕ} (hi : i ≤ h.now) : J (h.storeAt i) := by
  rcases Nat.lt_or_ge i h.now with hl | hl
  · have hi : h.At i h.steps[i] := List.getElem?_eq_getElem hl
    rw [Hist.storeAt_pre hi]
    exact (hk.steps i _ hi).1
  · rw [Nat.le_antisymm hi hl, Hist.storeAt_now]
    exact hk.state

/-- A reflexive, transitive consequence of the steps relates the states at two times. -/
theorem rel (hk : Kept X J G h) {R : σ → σ → Prop} (hr : ∀ a, R a a) (ht : ∀ {a b c}, R a b → R b c → R a c)
    (hR : ∀ s s', J s → J s' → G s s' → R s s') {i j : ℕ} (hij : i ≤ j) (hj : j ≤ h.now) :
    R (h.storeAt i) (h.storeAt j) :=
  Hist.steps_rel hr ht hij hj fun k e _ _ he =>
    let ⟨h₁, h₂, h₃⟩ := hk.steps k e he
    hR _ _ h₁ h₂ h₃

end Kept

variable {S : System σ Req Resp Call Res} {w : World σ Req Resp Call Res}

/-- Calls are named by their start: a call under way, and a step made by one, is older than its name
suggests, and a call that has returned is no longer under way. -/
structure Named (w : World σ Req Resp Call Res) : Prop where
  live : ∀ t th, w.live t = some th → t < w.hist.now
  caller : ∀ i e t, w.hist.At i e → e.label.caller = some t → t < i
  done : ∀ i e t c res, w.hist.At i e → e.label = .done t c res → w.live t = none

theorem Reach.named (hw : Reach S w) : Named w := by
  induction hw with
  | init => exact ⟨by simp, by simp, by simp⟩
  | @start w hw c ih =>
    refine ⟨fun t th hl => ?_, fun i e t hi he => ?_, fun i e t c res hi he => ?_⟩
    · simp only [Function.update_apply] at hl
      rw [Hist.push_now]
      split at hl
      · omega
      · have := ih.live t th hl
        omega
    · rcases Hist.at_push.1 hi with hi | ⟨-, rfl⟩
      · exact ih.caller i e t hi he
      · cases he
    · rcases Hist.at_push.1 hi with hi | ⟨-, rfl⟩
      · have hti := ih.caller i e t hi (by rw [he]; rfl)
        have hin := Hist.at_lt hi
        exact (Function.update_of_ne (by omega) ..).trans (ih.done i e t c res hi he)
      · cases he
  | @ask w hw t c r k hl x s hx ih =>
    refine ⟨fun t' th hl' => ?_, fun i e t' hi he => ?_, fun i e t' c' res hi he => ?_⟩
    · simp only [Function.update_apply] at hl'
      rw [Hist.push_now]
      split at hl'
      · next hte => exact hte ▸ Nat.lt_succ_of_lt (ih.live t _ hl)
      · exact Nat.lt_succ_of_lt (ih.live t' th hl')
    · rcases Hist.at_push.1 hi with hi | ⟨rfl, rfl⟩
      · exact ih.caller i e t' hi he
      · cases he
        exact ih.live t _ hl
    · rcases Hist.at_push.1 hi with hi | ⟨-, rfl⟩
      · have hnone := ih.done i e t' c' res hi he
        have hne : t' ≠ t := by
          rintro rfl
          rw [hl] at hnone
          cases hnone
        exact (Function.update_of_ne hne ..).trans hnone
      · cases he
  | @done w hw t c res hl ih =>
    refine ⟨fun t' th hl' => ?_, fun i e t' hi he => ?_, fun i e t' c' res' hi he => ?_⟩
    · simp only [Function.update_apply] at hl'
      rw [Hist.push_now]
      split at hl'
      · cases hl'
      · exact Nat.lt_succ_of_lt (ih.live t' th hl')
    · rcases Hist.at_push.1 hi with hi | ⟨rfl, rfl⟩
      · exact ih.caller i e t' hi he
      · cases he
        exact ih.live t _ hl
    · rcases Hist.at_push.1 hi with hi | ⟨-, rfl⟩
      · simp only [Function.update_apply]
        split
        · rfl
        · exact ih.done i e t' c' res' hi he
      · cases he
        exact Function.update_self ..

/-- Every call that made a request is under way or has returned. -/
theorem Reach.live_or_done (hw : Reach S w) {i t : ℕ} {r : Req} {x : Resp r} (ha : w.hist.Asked i t r x) :
    (∃ th, w.live t = some th) ∨ ∃ j c res, w.hist.Done j t c res := by
  obtain ⟨e, hi, he⟩ := ha
  induction hw with
  | init => exact absurd hi Hist.not_at_empty
  | @start w hw c ih =>
    rcases Hist.at_push.1 hi with hi | ⟨-, rfl⟩
    · have hti := hw.named.caller i e t hi (by rw [he]; rfl)
      have hin := Hist.at_lt hi
      rcases ih hi with ⟨th, hl⟩ | ⟨j, c, res, hd⟩
      · exact .inl ⟨th, (Function.update_of_ne (by omega) ..).trans hl⟩
      · exact .inr ⟨j, c, res, hd.mono Hist.le_push⟩
    · cases he
  | @ask w hw t' c r' k hl x' s hx ih =>
    by_cases hte : t = t'
    · exact .inl ⟨⟨c, k x'⟩, hte ▸ Function.update_self ..⟩
    rcases Hist.at_push.1 hi with hi | ⟨-, rfl⟩
    · rcases ih hi with ⟨th, hl⟩ | ⟨j, c, res, hd⟩
      · exact .inl ⟨th, (Function.update_of_ne hte ..).trans hl⟩
      · exact .inr ⟨j, c, res, hd.mono Hist.le_push⟩
    · simp only [Label.ask.injEq] at he
      exact absurd he.1.symm hte
  | @done w hw t' c res hl ih =>
    rcases Hist.at_push.1 hi with hi | ⟨-, rfl⟩
    · by_cases hte : t = t'
      · exact .inr ⟨_, c, res, _, Hist.at_push_now, by rw [hte]⟩
      rcases ih hi with ⟨th, hl⟩ | ⟨j, c, res, hd⟩
      · exact .inl ⟨th, (Function.update_of_ne hte ..).trans hl⟩
      · exact .inr ⟨j, c, res, hd.mono Hist.le_push⟩
    · cases he

/-- The rule for invariants of runs, for the prefixes of one history. If the invariant holds at first, starting a call makes
its program safe, given what the calls that have returned satisfied, and returning keeps the invariant, then the invariant
holds, every call under way is safe, and every return satisfied its postcondition and has seen no request of its call since. -/
theorem Reach.sound_upto {H : Hist σ Req Resp Call Res} {Inv : Hist σ Req Resp Call Res → Prop}
    {Post : (t : ℕ) → (c : Call) → Res c → Hist σ Req Resp Call Res → Prop}
    (hinit : ∀ s, S.init s → Inv (.empty s))
    (hstart : ∀ h c, h.push (.start c) h.store ≤ H → Inv h → (∀ i e, h.At i e → e.label.caller ≠ some h.now) →
      (∀ i e t c res, h.At i e → e.label = .done t c res → ∃ h', Rely Inv t h' h ∧ h'.now = i ∧ Post t c res h') →
      Inv (h.push (.start c) h.store) ∧
        Safe S Inv h.now (S.prog c) (Post h.now c) (h.push (.start c) h.store))
    (hdone : ∀ h t c res, Inv h → Post t c res h → Inv (h.push (.done t c res) h.store))
    (hw : Reach S w) (hH : w.hist ≤ H) :
    Inv w.hist ∧ (∀ t th, w.live t = some th → Safe S Inv t th.rest (Post t th.call) w.hist) ∧
      ∀ i e t c res, w.hist.At i e → e.label = .done t c res →
        ∃ h, Rely Inv t h w.hist ∧ h.now = i ∧ Post t c res h := by
  induction hw with
  | init h => exact ⟨hinit _ h, by simp, by simp⟩
  | @start w hw c ih =>
    obtain ⟨hi, hl, hd⟩ := ih (Hist.le_push.trans hH)
    have hfresh : ∀ i e, w.hist.At i e → e.label.caller ≠ some w.hist.now := by
      intro i e hi he
      have hti := hw.named.caller i e _ hi he
      exact absurd (Hist.at_lt hi) (by omega)
    obtain ⟨hi', hs⟩ := hstart w.hist c hH hi hfresh hd
    refine ⟨hi', fun t th hth => ?_, fun i e t c' res hie he => ?_⟩
    · simp only [Function.update_apply] at hth
      split at hth
      · next hte => cases hth; exact hte ▸ hs
      · exact (hl t th hth).wait (Rely.push hi' (by simp))
    · rcases Hist.at_push.1 hie with hie | ⟨-, rfl⟩
      · obtain ⟨h, hh, hn, hp⟩ := hd i e t c' res hie he
        exact ⟨h, hh.trans (Rely.push hi' (by simp)), hn, hp⟩
      · cases he
  | @ask w hw t c r k hlt x s hx ih =>
    obtain ⟨hi, hl, hd⟩ := ih (Hist.le_push.trans hH)
    obtain ⟨hi', hs⟩ := hl t _ hlt w.hist (Rely.refl hi) x s hx
    have hothers : ∀ t', t' ≠ t → Rely Inv t' w.hist (w.hist.push (.ask t r x) s) := by
      refine fun t' hte => Rely.push hi' fun r' x' hx' => hte ?_
      simp only [Label.ask.injEq] at hx'
      exact hx'.1.symm
    refine ⟨hi', fun t' th hth => ?_, fun i e t' c' res hie he => ?_⟩
    · simp only [Function.update_apply] at hth
      split at hth
      · next hte => cases hth; exact hte ▸ hs
      · next hte => exact (hl t' th hth).wait (hothers t' hte)
    · rcases Hist.at_push.1 hie with hie' | ⟨-, rfl⟩
      · obtain ⟨h, hh, hn, hp⟩ := hd i e t' c' res hie' he
        have hte : t' ≠ t := by
          rintro rfl
          have hnone := hw.named.done i e t' c' res hie' he
          rw [hlt] at hnone
          cases hnone
        exact ⟨h, hh.trans (hothers t' hte), hn, hp⟩
      · cases he
  | @done w hw t c res hlt ih =>
    obtain ⟨hi, hl, hd⟩ := ih (Hist.le_push.trans hH)
    have hp : Post t c res w.hist := hl t _ hlt w.hist (Rely.refl hi)
    have hi' := hdone w.hist t c res hi hp
    refine ⟨hi', fun t' th hth => ?_, fun i e t' c' res' hie he => ?_⟩
    · simp only [Function.update_apply] at hth
      split at hth
      · cases hth
      · exact (hl t' th hth).wait (Rely.push hi' (by simp))
    · rcases Hist.at_push.1 hie with hie | ⟨rfl, rfl⟩
      · obtain ⟨h, hh, hn, hp⟩ := hd i e t' c' res' hie he
        exact ⟨h, hh.trans (Rely.push hi' (by simp)), hn, hp⟩
      · cases he
        exact ⟨w.hist, Rely.push hi' (by simp), rfl, hp⟩

/-- The rule for invariants of runs. If the invariant holds at first, starting a call makes its program
safe, and returning keeps the invariant, then the invariant holds in every reachable world, every call
under way is safe, and every return satisfied its postcondition and has seen no request of its call since. -/
theorem Reach.sound {Inv : Hist σ Req Resp Call Res → Prop}
    {Post : (t : ℕ) → (c : Call) → Res c → Hist σ Req Resp Call Res → Prop}
    (hinit : ∀ s, S.init s → Inv (.empty s))
    (hstart : ∀ h c, Inv h → (∀ i e, h.At i e → e.label.caller ≠ some h.now) →
      Inv (h.push (.start c) h.store) ∧
        Safe S Inv h.now (S.prog c) (Post h.now c) (h.push (.start c) h.store))
    (hdone : ∀ h t c res, Inv h → Post t c res h → Inv (h.push (.done t c res) h.store))
    (hw : Reach S w) :
    Inv w.hist ∧ (∀ t th, w.live t = some th → Safe S Inv t th.rest (Post t th.call) w.hist) ∧
      ∀ i e t c res, w.hist.At i e → e.label = .done t c res →
        ∃ h, Rely Inv t h w.hist ∧ h.now = i ∧ Post t c res h :=
  hw.sound_upto (H := w.hist) hinit (fun h c _ hi hfresh _ => hstart h c hi hfresh) hdone le_rfl

end Conc
