import YeetzS3.Publish

/-!
# Laws of one lifetime

What the invariant and the knowledge of the returned calls add up to, for any three objects kept the way
of this repository. A publication that was found open landed while the counter stood at its stamp
(`count_landing`); two of them are of increasing lifetimes or one follows the other
(`landings_increase`), so an etag is presented once (`etag_once`); and once every call has returned, a
control that is there is of the open lifetime, unless a destroy closed it under a writer that had
already been told it was open (`open_at_rest`).
-/

namespace YeetzS3.Slots

open Conc Relation

variable {Call : Type} {Res : Call → Type} {S : Slots} {B : Backend} {L : Lifetimes Bytes} {h : History Call Res}
  {t t' ℓ ℓ' b b' : ℕ} {n n' : UInt64} {d d' : Bytes} {c c' : Option Etag}

/-! ### Landings -/

/-- A publication that was found open landed while the counter stood at its stamp. -/
theorem Published.count_landing (hp : S.Published B L h t ℓ n d c) (hr : S.ReadAt h t b n) (hb : ℓ < b)
    (hI : S.Inv B L h) (hB : B.Sound) : S.count (h.storeAt ℓ) = n.toNat := by
  obtain ⟨a, ha, hra⟩ := hp.opened
  have hle := hI.count_le hB ha.le (hb.le.trans hr.lt.le)
  have hge := hI.count_le hB hb.le hr.lt.le
  rw [hra.count] at hle
  rw [hr.count] at hge
  exact Nat.le_antisymm hge hle

/-- Where a publication landed, its control stood. -/
theorem Published.object_landing (hp : S.Published B L h t ℓ n d c) (hI : S.Inv B L h) :
    ∃ e, S.object (h.storeAt (ℓ + 1)) = some ⟨d, e⟩ := by
  obtain ⟨y, hy⟩ := hp.asked
  obtain ⟨-, e, -, hins, -⟩ := Backend.put_ok (hI.exec hy).1
  exact ⟨e, by rw [hins, object, AList.lookup_insert]⟩

/-- A publication that presented an etag replaced the control with that etag. -/
theorem Published.replaced {e : Etag} (hp : S.Published B L h t ℓ n d (some e)) (hI : S.Inv B L h) :
    ∃ o, S.object (h.storeAt ℓ) = some o ∧ o.etag = e := by
  obtain ⟨y, hy⟩ := hp.asked
  exact Store.accepts_some.1 (Backend.put_ok (hI.exec hy).1).1

/-- A publication that presented no etag found nothing there. -/
theorem Published.created (hp : S.Published B L h t ℓ n d none) (hI : S.Inv B L h) :
    S.object (h.storeAt ℓ) = none := by
  obtain ⟨y, hy⟩ := hp.asked
  exact Store.accepts_none.1 (Backend.put_ok (hI.exec hy).1).1

/-- Between two publications that were found open in one lifetime, only successors of the first were there. -/
theorem Published.line (hI : S.Inv B L h) (hB : B.Sound) (hp : S.Published B L h t ℓ n d c)
    (hp' : S.Published B L h t' ℓ' n d' c') (hr' : S.ReadAt h t' b' n) (hb' : ℓ' < b') (hlt : ℓ < ℓ') :
    ∃ o, S.object (h.storeAt ℓ') = some o ∧ ReflTransGen L.next d o.data := by
  have hnow : ℓ' < h.now := let ⟨_, hy⟩ := hp'.asked; hy.lt
  obtain ⟨e, ho⟩ := hp.object_landing hI
  have hv : (S.cell (h.storeAt (ℓ + 1))).val = some d := by rw [cell, ho, Option.map_some]
  have hopen : (S.cell (h.storeAt ℓ')).ctr ≤ L.stamp d := by
    rw [hp.stamp, ← hp'.count_landing hr' hb' hI hB]
    rfl
  obtain ⟨w, hw, hdw⟩ := (hI.run hB (Nat.succ_le_of_lt hlt) hnow.le).line hv hopen
  obtain ⟨o, ho', rfl⟩ := Option.map_eq_some_iff.1 (show (S.object (h.storeAt ℓ')).map (·.data) = some w from hw)
  exact ⟨o, ho', hdw⟩

/-- What an etag presented at step `ℓ` named was there. -/
theorem Published.data_replaced {e : Etag} {o : Object} {v : Bytes} (hp : S.Published B L h t ℓ n d (some e))
    (hI : S.Inv B L h) (hB : B.Sound) (ho : S.object (h.storeAt ℓ) = some o) (hv : B.tags v e) : o.data = v := by
  obtain ⟨y, hy⟩ := hp.asked
  obtain ⟨o', ho', rfl⟩ := hp.replaced hI
  cases ho.symm.trans ho'
  exact hB _ _ _ ((hI.stateAt hy.lt.le).tagged _ o ho) hv

/-- Of two publications that were found open, the later is of a later lifetime or follows the earlier. -/
theorem landings_increase (hI : S.Inv B L h) (hB : B.Sound) (hp : S.Published B L h t ℓ n d c) (hr : S.ReadAt h t b n)
    (hb : ℓ < b) (hp' : S.Published B L h t' ℓ' n' d' c') (hr' : S.ReadAt h t' b' n') (hb' : ℓ' < b') (hlt : ℓ < ℓ') :
    n.toNat < n'.toNat ∨ n = n' ∧ TransGen L.next d d' := by
  have hle := hI.count_le hB hlt.le (let ⟨_, hy⟩ := hp'.asked; hy.lt.le)
  rw [hp.count_landing hr hb hI hB, hp'.count_landing hr' hb' hI hB] at hle
  rcases Nat.lt_or_eq_of_le hle with hlt' | heq
  · exact .inl hlt'
  obtain rfl := UInt64.toNat_inj.1 heq
  refine .inr ⟨rfl, ?_⟩
  obtain ⟨o, ho, hdo⟩ := hp.line hI hB hp' hr' hb' hlt
  cases c' with
  | none =>
    rw [hp'.created hI] at ho
    cases ho
  | some e =>
    obtain ⟨v, hv, hvd⟩ := hp'.next e rfl
    exact .tail' hdo (hp'.data_replaced hI hB ho hv ▸ hvd)

theorem rank_le {rank : Bytes → ℕ} (hrank : ∀ v w, L.next v w → rank v < rank w) {v w : Bytes}
    (h : ReflTransGen L.next v w) : rank v ≤ rank w := by
  induction h with
  | refl => exact Nat.le_refl _
  | tail _ hn ih => exact ih.trans (hrank _ _ hn).le

/-- Two publications that were found open did not present the same etag. -/
theorem etag_once {rank : Bytes → ℕ} (hrank : ∀ v w, L.next v w → rank v < rank w) (hI : S.Inv B L h) (hB : B.Sound)
    {e : Etag} (hp : S.Published B L h t ℓ n d (some e)) (hp' : S.Published B L h t' ℓ' n' d' (some e))
    (hr' : S.ReadAt h t' b' n') (hb' : ℓ' < b') : ¬ ℓ < ℓ' := by
  intro hlt
  obtain ⟨v, hv, hvd⟩ := hp.next e rfl
  obtain ⟨v', hv', hvd'⟩ := hp'.next e rfl
  obtain rfl := hB _ _ _ hv hv'
  -- both follow the control of etag `e`, so they are of one lifetime
  have hst : L.stamp d = L.stamp d' := (L.stamp_next hvd).trans (L.stamp_next hvd').symm
  obtain rfl : n = n' := UInt64.toNat_inj.1 (by rw [← hp.stamp, ← hp'.stamp, hst])
  obtain ⟨o, ho, hdo⟩ := hp.line hI hB hp' hr' hb' hlt
  obtain rfl := hp'.data_replaced hI hB ho hv
  exact absurd (rank_le hrank hdo) (Nat.not_le.2 (hrank _ _ hvd))

/-! ### Acknowledged publications -/

/-- The last control call `t` published is `d`, at step `ℓ`. -/
structure Landing (S : Slots) (h : History Call Res) (t ℓ : ℕ) (d : Bytes) (c : Option Etag) : Prop where
  asked : ∃ y, h.Asked ℓ t (.put S.control d c) (.ok y)
  last : ∀ ℓ' d' c' y, h.Asked ℓ' t (.put S.control d' c') (.ok y) → ℓ' ≤ ℓ

/-- One step is one request. -/
theorem asked_inj {i t t' : ℕ} {r r' : Req} {x : Resp r} {x' : Resp r'} (ha : h.Asked i t r x)
    (ha' : h.Asked i t' r' x') : t = t' ∧ r = r' := by
  obtain ⟨e, he, hl⟩ := ha
  obtain ⟨e', he', hl'⟩ := ha'
  cases Option.some.inj (he.symm.trans he')
  have heq := hl.symm.trans hl'
  simp only [Label.ask.injEq] at heq
  exact ⟨heq.1, heq.2.1⟩

/-- A call lands one last publication. -/
theorem Landing.unique (hl : S.Landing h t ℓ d c) (hl' : S.Landing h t ℓ' d' c') : ℓ = ℓ' ∧ d = d' ∧ c = c' := by
  obtain ⟨y, hy⟩ := hl.asked
  obtain ⟨y', hy'⟩ := hl'.asked
  obtain rfl : ℓ = ℓ' := Nat.le_antisymm (hl'.last _ _ _ _ hy) (hl.last _ _ _ _ hy')
  obtain ⟨-, heq⟩ := asked_inj hy hy'
  simp only [Req.put.injEq, true_and] at heq
  exact ⟨rfl, heq⟩

theorem Published.landing (hp : S.Published B L h t ℓ n d c) : S.Landing h t ℓ d c := ⟨hp.asked, hp.last⟩

theorem Acked.landing (ha : S.Acked B L h t c) : ∃ ℓ d, S.Landing h t ℓ d c :=
  let ⟨ℓ, _, d, hp, _⟩ := ha
  ⟨ℓ, d, hp.landing⟩

/-- What an acknowledged call landed is what it found open. -/
theorem Acked.published (ha : S.Acked B L h t c) (hl : S.Landing h t ℓ d c') :
    ∃ n b, S.Published B L h t ℓ n d c ∧ ℓ < b ∧ S.ReadAt h t b n := by
  obtain ⟨ℓ', n, d', hp, b, hb, hr⟩ := ha
  obtain ⟨rfl, rfl, -⟩ := hp.landing.unique hl
  exact ⟨n, b, hp, hb, hr⟩

/-! ### At rest -/

/-- A control that is there was published at some step, and has been there since. -/
theorem origin (hI : S.Inv B L h) (hinit : S.object h.init = none) {j : ℕ} {o : Object} (hj : j ≤ h.now)
    (ho : S.object (h.storeAt j) = some o) :
    ∃ ℓ t c x, ℓ < j ∧ h.Asked ℓ t (.put S.control o.data c) x ∧ S.object (h.storeAt ℓ) ≠ some o ∧
      ∀ k, ℓ < k → k ≤ j → S.object (h.storeAt k) = some o := by
  induction j with
  | zero =>
    rw [Hist.storeAt_zero, hinit] at ho
    cases ho
  | succ j ih =>
    by_cases hprev : S.object (h.storeAt j) = some o
    · obtain ⟨ℓ, t, c, x, hl, ha, hne, hstay⟩ := ih (by omega) hprev
      refine ⟨ℓ, t, c, x, by omega, ha, hne, fun k hk hkj => ?_⟩
      rcases Nat.lt_or_eq_of_le hkj with hkj | rfl
      · exact hstay k hk (by omega)
      · exact ho
    · obtain ⟨t, r, x, ha⟩ := hI.asked_of_ne hj fun he => hprev (by rw [← he, ho])
      obtain ⟨hx, hr⟩ := hI.exec ha
      obtain ⟨c, rfl⟩ := hr.publishes hx ho hprev
      refine ⟨j, t, c, x, Nat.lt_succ_self j, ha, hprev, fun k hk hkj => ?_⟩
      obtain rfl : k = j + 1 := by omega
      exact ho

/-- A counter that moved was written by some step in between. -/
theorem moved (hI : S.Inv B L h) {i j : ℕ} (hij : i ≤ j) (hj : j ≤ h.now)
    (hne : S.count (h.storeAt j) ≠ S.count (h.storeAt i)) :
    ∃ β t d c x, i ≤ β ∧ β < j ∧ h.Asked β t (.put S.counter d c) x ∧
      S.count (h.storeAt β) = S.count (h.storeAt i) ∧ S.count (h.storeAt (β + 1)) ≠ S.count (h.storeAt i) := by
  induction hij with
  | refl => exact absurd rfl hne
  | @step j hij ih =>
    by_cases hprev : S.count (h.storeAt j) = S.count (h.storeAt i)
    · have hmoved : S.count (h.storeAt (j + 1)) ≠ S.count (h.storeAt j) := hprev ▸ hne
      obtain ⟨t, r, x, ha⟩ := hI.asked_of_ne hj fun he => hmoved (by rw [he])
      obtain ⟨hx, hr⟩ := hI.exec ha
      obtain ⟨d, c, rfl⟩ := hr.moves hx hmoved
      exact ⟨j, t, d, c, x, hij, Nat.lt_succ_self j, ha, hprev, hne⟩
    · obtain ⟨β, t, d, c, x, hi, hβ, h⟩ := ih (by omega) hprev
      exact ⟨β, t, d, c, x, hi, hβ.trans (Nat.lt_succ_self j), h⟩

/-- A destroy moves the counter over an open control only if it is the one it saw, or if a writer of it has
yet to look at the counter. -/
def BumpsFairly (S : Slots) (L : Lifetimes Bytes) (h : History Call Res) : Prop :=
  ∀ β t d c y, h.Asked β t (.put S.counter d c) (.ok y) → ∀ o, S.object (h.storeAt β) = some o →
    L.stamp o.data = S.count (h.storeAt β) →
    (∃ i b, i < β ∧ h.Asked i t (.get S.control) (.ok (b, some o.etag))) ∨
      ∃ ℓ u c' y', ℓ < β ∧ h.Asked ℓ u (.put S.control o.data c') (.ok y') ∧
        (∀ k, ℓ < k → k ≤ β → S.object (h.storeAt k) = some o) ∧
        ∀ k x, ℓ < k → k < β → ¬ h.Asked k u (.get S.counter) x

/-- Once what was published is settled and what was moved over is closed, a control that is there is of the
open lifetime. -/
theorem open_at_rest (hI : S.Inv B L h) (hB : B.Sound) (hf : ¬ B.faults) (hinit : S.object h.init = none)
    (hset : ∀ ℓ t d c y, h.Asked ℓ t (.put S.control d c) (.ok y) → S.Settled L t h)
    (hclosed : ∀ β t d c y, h.Asked β t (.put S.counter d c) (.ok y) → S.Closed t h)
    (hfair : S.BumpsFairly L h) {o : Object} (ho : S.object h.store = some o) : L.stamp o.data = S.count h.store := by
  -- a put that changed something on a backend that does not fail was answered
  have hanswered : ∀ {i t p d c x}, h.Asked i t (.put p d c) x → h.storeAt (i + 1) ≠ h.storeAt i → ∃ y, x = .ok y := by
    intro i t p d c x ha hne
    match x, ha with
    | .ok y, _ => exact ⟨y, rfl⟩
    | .error e, ha =>
      obtain ⟨-, e', -, -, hx | ⟨hf', -⟩⟩ | ⟨-, hs, -⟩ | ⟨hf', -⟩ := (hI.exec ha).1
      · cases hx
      · exact absurd hf' hf
      · exact absurd hs hne
      · exact absurd hf' hf
  -- whoever published the control and looked at the counter since found it open
  have hseen : ∀ ℓ t c y, ℓ < h.now → h.Asked ℓ t (.put S.control o.data c) (.ok y) →
      (∀ k, ℓ < k → k ≤ h.now → S.object (h.storeAt k) = some o) → S.Seen L h t ℓ o.data := by
    intro ℓ t c y hl ha hstay
    rcases hset ℓ t o.data c y ha ℓ o.data c y ha with hs | ⟨k, hk, hkn, hne⟩
    · exact hs
    · exact absurd ((hstay k hk hkn).trans (hstay (ℓ + 1) (by omega) hl).symm) hne
  obtain ⟨ℓ, t, c, x, hl, ha, hne, hstay⟩ := origin hI hinit (Nat.le_refl h.now) (by rw [Hist.storeAt_now, ho])
  obtain ⟨y, rfl⟩ := hanswered ha fun he => hne (by rw [← he]; exact hstay (ℓ + 1) (by omega) hl)
  obtain ⟨k, n, hk, hr, hn⟩ := hseen ℓ t c y hl ha hstay
  have hnow : S.count h.store = S.count (h.storeAt h.now) := by rw [Hist.storeAt_now]
  rw [hn, ← hr.count, hnow]
  by_contra hmoved
  obtain ⟨β, u, d, c', x', hkβ, hβ, hask, hstand, hnext⟩ := moved hI hr.lt.le (Nat.le_refl h.now) (Ne.symm hmoved)
  obtain ⟨y', rfl⟩ := hanswered hask fun he => hnext (by rw [he, hstand])
  have hoβ : S.object (h.storeAt β) = some o := hstay β (by omega) hβ.le
  have hgt : S.count (h.storeAt k) < S.count (h.storeAt (β + 1)) := by
    refine Nat.lt_of_le_of_ne ?_ (Ne.symm hnext)
    rw [← hstand]
    exact hI.count_le hB (Nat.le_succ β) hβ
  rcases hfair β u d c' y' hask o hoβ (by rw [hn, hstand, hr.count]) with
    ⟨i, b, hi, hget⟩ | ⟨ℓ', u', c'', y'', hl', ha', hstay', hnot⟩
  · -- the destroy that moved it had seen this control, and saw it gone
    obtain ⟨k', hk', hkn, hgone⟩ := hclosed β u d c' y' hask β d c' y' hask i b o.etag hi hget
    exact hgone o (hstay k' (by omega) hkn) rfl
  · -- a writer that looked later than that did not find it open
    have hstayn : ∀ j, ℓ' < j → j ≤ h.now → S.object (h.storeAt j) = some o := fun j hj hjn => by
      rcases Nat.lt_or_ge β j with hβj | hβj
      · exact hstay j (by omega) hjn
      · exact hstay' j hj hβj
    obtain ⟨k', n', hk', hr', hn'⟩ := hseen ℓ' u' c'' y'' (hl'.trans hβ) ha' hstayn
    obtain ⟨x'', hx''⟩ := hr'.asked
    rcases Nat.lt_trichotomy k' β with hlt | rfl | hlt
    · exact hnot k' x'' hk' hlt hx''
    · exact absurd (asked_inj hx'' hask).2 nofun
    · have hle : S.count (h.storeAt (β + 1)) ≤ S.count (h.storeAt k') := hI.count_le hB hlt hr'.lt.le
      rw [hr'.count, ← hn', hn, ← hr.count] at hle
      omega

end YeetzS3.Slots
