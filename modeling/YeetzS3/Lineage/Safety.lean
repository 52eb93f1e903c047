import YeetzS3.Lineage.Asks

/-!
# The operations of a lineage are safe

Every operation of `StateKernel` on one lineage keeps the invariant of its three objects whatever other calls do
meanwhile, and returns knowing what `Appended` and `Closed` say.
-/

namespace YeetzS3.Lineage

open Conc Slots

variable {Call : Type} {Res : Call → Type} (X : Crates) {l : KernelLineage} {Sys : System Store Req Resp Call Res}
  {B : Backend} {h : History Call Res} {t ℓ : ℕ} {c : Option Etag}

/-- How an append ends: what it published is settled, and the head it returns is the last it published, found in
its open lifetime. -/
def Appended (l : KernelLineage) (B : Backend) (t : ℕ) (c : Option Etag) (r : Except KernelError HeadRead)
    (h : History Call Res) : Prop :=
  (l.slots.Calm B → l.slots.Settled (lifetimes X l) t h) ∧ ∀ a, r = .ok a →
    ∃ ℓ b, l.slots.Published B (lifetimes X l) h t ℓ a.head.incarnation (a.head.canonicalBytes X) c ∧ ℓ < b ∧
      l.slots.ReadAt h t b a.head.incarnation

variable {X}

theorem Appended.steady {r : Except KernelError HeadRead} :
    l.slots.Steady B (lifetimes X l) t (fun h : History Call Res => Appended X l B t c r h) where
  wait _ _ hr hh := ⟨Settled.steady.imp.wait _ _ hr hh.1, fun a ha =>
    let ⟨ℓ, b, hp, hb, hra⟩ := hh.2 a ha
    ⟨ℓ, b, Published.steady.wait _ _ hr hp, hb, hra.mono hr.le⟩⟩
  spare _ _ x s hr hh := ⟨(Settled.steady (B := B)).imp.spare _ _ x s hr hh.1, fun a ha =>
    let ⟨ℓ, b, hp, hb, hra⟩ := hh.2 a ha
    ⟨ℓ, b, Published.steady.spare _ _ x s hr hp, hb, hra.mono Hist.le_push⟩⟩

theorem appended_throw {err : KernelError} (hs : l.slots.Calm B → l.slots.Settled (lifetimes X l) t h) :
    Safe Sys (l.slots.Inv B (lifetimes X l)) t (throw err : KernelOp HeadRead).run (Appended X l B t c) h :=
  Safe.ret fun _ hr => ⟨Settled.steady.imp.wait _ _ hr hs, nofun⟩

/-- A check of the input, before any request. -/
theorem safe_check {β : Type} {x : Except KernelError β} {f : β → KernelOp HeadRead}
    (hs : l.slots.Calm B → l.slots.Settled (lifetimes X l) t h)
    (hk : ∀ b, x = .ok b → Safe Sys (l.slots.Inv B (lifetimes X l)) t (f b).run (Appended X l B t c) h) :
    Safe Sys (l.slots.Inv B (lifetimes X l)) t (check x >>= f).run (Appended X l B t c) h := by
  cases x with
  | error e => exact appended_throw hs
  | ok b => exact hk b rfl

theorem allowsGet (p : Str) : l.slots.Spares (.get p) := trivial

theorem allowsRecord (d : RecordDigest) (data : Bytes) : l.slots.Spares (.put (l.objectKey d) data none) :=
  l.spare_objectKey d

section
variable (hx : ∀ s r x s', Sys.exec s r x s' → B.exec s r x s') {α : Type} {Q : Except KernelError α → History Call Res → Prop}
include hx

/-! ### Reads of the head -/

/-- A read of the head that looks at how it ended. -/
theorem safe_tryHead {f : Except KernelError (CanonicalHead × Option Etag) → KernelOp α}
    (hok : ∀ h₁, Rely (l.slots.Inv B (lifetimes X l)) t h h₁ → ∀ o e head, l.slots.object h₁.store = some o →
      CanonicalHead.fromBytes X l o.data = .ok head → (∀ e', e = some e' → o.etag = e') →
      l.slots.Inv B (lifetimes X l) (h₁.push (.ask t (.get l.headKey) (.ok (o.data, e))) h₁.store) →
      Safe Sys (l.slots.Inv B (lifetimes X l)) t (f (.ok (head, e))).run Q
        (h₁.push (.ask t (.get l.headKey) (.ok (o.data, e))) h₁.store))
    (hnone : ∀ h₁, Rely (l.slots.Inv B (lifetimes X l)) t h h₁ → l.slots.object h₁.store = none → ∀ reference x,
      l.slots.Inv B (lifetimes X l) (h₁.push (.ask t (.get l.headKey) x) h₁.store) →
      Safe Sys (l.slots.Inv B (lifetimes X l)) t (f (.error (.stateHistoryIncomplete reference))).run Q
        (h₁.push (.ask t (.get l.headKey) x) h₁.store))
    (herr : ∀ h₁, Rely (l.slots.Inv B (lifetimes X l)) t h h₁ → ∀ err x, (∀ reference, err ≠ .stateHistoryIncomplete reference) →
      l.slots.Inv B (lifetimes X l) (h₁.push (.ask t (.get l.headKey) x) h₁.store) →
      Safe Sys (l.slots.Inv B (lifetimes X l)) t (f (.error err)).run Q (h₁.push (.ask t (.get l.headKey) x) h₁.store)) :
    Safe Sys (l.slots.Inv B (lifetimes X l)) t (Op.attempt (loadHead X l) >>= f).run Q h := by
  rw [loadHead, Op.attempt_ask_bind]
  refine safe_download hx fun h₁ hr x hex hI => ?_
  match x, hex, hI with
  | .ok (data, e), hex, hI =>
    obtain ⟨o, ho, rfl, he⟩ := Backend.get_ok hex
    dsimp only
    cases hd : CanonicalHead.fromBytes X l o.data with
    | ok head =>
      rw [Op.attempt_pure_bind]
      exact hok h₁ hr o e head ho hd he hI
    | error err =>
      rw [Op.attempt_throw_bind]
      obtain ⟨reference, rfl⟩ := CanonicalHead.fromBytes_error hd
      exact herr h₁ hr _ _ nofun hI
  | .error .notFound, hex, hI =>
    dsimp only
    rw [Op.attempt_throw_bind]
    exact hnone h₁ hr (Backend.get_notFound hex) _ _ hI
  | .error .preconditionFailed, _, hI =>
    dsimp only
    rw [unavailable, Op.attempt_throw_bind]
    exact herr h₁ hr _ _ nofun hI
  | .error .failed, _, hI =>
    dsimp only
    rw [unavailable, Op.attempt_throw_bind]
    exact herr h₁ hr _ _ nofun hI

/-- A read of the head, and what follows when it is one. -/
theorem safe_loadHead {Y : History Call Res → Prop} {f : CanonicalHead × Option Etag → KernelOp α}
    (hY : l.slots.Steady B (lifetimes X l) t Y) (hh : Y h)
    (hk : ∀ h₁ b head e, h ≤ h₁ → l.slots.Inv B (lifetimes X l) h₁ → Y h₁ → CanonicalHead.fromBytes X l b = .ok head →
      (∀ e', e = some e' → B.tags b e') → (B.Sound → head.incarnation.toNat ≤ l.slots.count h₁.store) →
      Safe Sys (l.slots.Inv B (lifetimes X l)) t (f (head, e)).run Q h₁)
    (herr : ∀ h₁ err, h ≤ h₁ → l.slots.Inv B (lifetimes X l) h₁ → Y h₁ →
      Safe Sys (l.slots.Inv B (lifetimes X l)) t (throw err : KernelOp α).run Q h₁) :
    Safe Sys (l.slots.Inv B (lifetimes X l)) t (loadHead X l >>= f).run Q h := by
  rw [Op.bind_eq_attempt]
  refine safe_tryHead hx (fun h₁ hr o e head ho hd he hI => ?_) (fun h₁ hr _ _ x hI => ?_) fun h₁ hr err x _ hI => ?_
  · refine hk _ o.data head e (hr.le.trans Hist.le_push) hI (hY.spare _ _ _ _ (allowsGet _) (hY.wait _ _ hr hh)) hd ?_ ?_
    · rintro e' rfl
      exact he e' rfl ▸ hr.inv.state.tagged _ _ ho
    · intro hB
      have hsane := hr.inv.state.sane hB o.data (by rw [cell, ho, Option.map_some])
      rw [lifetimes_stamp, stampOf_fromBytes hd] at hsane
      rwa [Hist.push_store]
  · exact herr _ _ (hr.le.trans Hist.le_push) hI (hY.spare _ _ _ _ (allowsGet _) (hY.wait _ _ hr hh))
  · exact herr _ _ (hr.le.trans Hist.le_push) hI (hY.spare _ _ _ _ (allowsGet _) (hY.wait _ _ hr hh))

omit hx in
/-- A conflict ends the operation. -/
theorem throwConflict_bind {β γ : Type} (f : β → KernelOp γ) : (throwConflict X l >>= f) = throwConflict X l := by
  rw [throwConflict, throwConflict, bind_assoc]
  rfl

theorem safe_throwConflict (hI : l.slots.Inv B (lifetimes X l) h)
    (hs : l.slots.Calm B → l.slots.Settled (lifetimes X l) t h) :
    Safe Sys (l.slots.Inv B (lifetimes X l)) t (throwConflict X l : KernelOp HeadRead).run (Appended X l B t c) h := by
  have he : (headConflict X l).run.Every l.slots.Spares fun _ => True := by
    refine Op.every_attempt_bind (every_loadHead X allowsGet) ?_
    rintro (_ | _) <;> trivial
  exact safe_step hx hI he Settled.steady.imp hs (fun _ _ _ _ _ hs₁ => appended_throw hs₁) fun _ _ _ _ hs₁ => appended_throw hs₁

/-! ### Publication of a head -/

/-- The end of an append that published head `published`: it is found open, or evicted. -/
theorem safe_finish (published : HeadRead) {n : UInt64} {f : UInt64 → KernelOp HeadRead}
    (hI : l.slots.Inv B (lifetimes X l) h) (ha : ∃ a, l.slots.ReadAt h t a n) (hn : published.head.incarnation = n)
    (hp : l.slots.Published B (lifetimes X l) h t ℓ n (published.head.canonicalBytes X) c)
    (hb : l.slots.Calm B → l.slots.SettledBut (lifetimes X l) t ℓ h) (hf : f n = pure published)
    (hstale : ∀ h₁ m, m ≠ n → h ≤ h₁ → l.slots.Inv B (lifetimes X l) h₁ → l.slots.Stale h₁ t n →
      (l.slots.Calm B → l.slots.SettledBut (lifetimes X l) t ℓ h₁) →
      Safe Sys (l.slots.Inv B (lifetimes X l)) t (f m).run (Appended X l B t c) h₁) :
    Safe Sys (l.slots.Inv B (lifetimes X l)) t (currentIncarnation l >>= f).run (Appended X l B t c) h := by
  refine safe_recheck (P := True) hx hI ha (fun _ => hp) hb (fun _ => trivial) (fun h₁ _ _ hack hs => ?_) hstale
    fun h₁ err hfault => appended_throw fun hc => absurd hfault hc.1
  obtain ⟨hp₁, b, hb₁, hr⟩ := hack trivial
  have hacked : Appended X l B t c (.ok published) h₁ := by
    refine ⟨hs, ?_⟩
    rintro a ⟨⟩
    exact ⟨ℓ, b, hn ▸ hp₁, hb₁, hn ▸ hr⟩
  rw [hf]
  exact Safe.ret fun _ hr => Appended.steady.wait _ _ hr hacked

theorem safe_createHead (generation : UInt64) (recordDigest : RecordDigest) (prior : Option RecordPosition) (tries : ℕ)
    (hI : l.slots.Inv B (lifetimes X l) h) (hs : l.slots.Calm B → l.slots.Settled (lifetimes X l) t h) :
    Safe Sys (l.slots.Inv B (lifetimes X l)) t (createHead X l generation recordDigest prior tries).run
      (Appended X l B t none) h := by
  induction tries generalizing h with
  | zero => exact appended_throw hs
  | succ tries ih =>
    refine safe_current hx hI Settled.steady.imp hs (fun h₁ n a _ hI₁ ha hs₁ => ?_) fun _ _ _ _ hs₁ => appended_throw hs₁
    have hd : (lifetimes X l).stamp (CanonicalHead.canonicalBytes X ⟨l, generation, n, recordDigest, prior⟩) = n.toNat := by
      simp
    refine safe_publish hx ha hd (by simp) hs₁ (fun h₂ ℓ y hle hI₂ hp hb ho hy => ?_) fun h₂ e _ hI₂ hs₂ hf => ?_
    · match y, ho, hy with
      | none, _, hy => exact appended_throw fun hc => absurd (hy rfl) hc.1
      | some etag, ho, _ =>
        obtain ⟨htag, hobj⟩ := ho etag rfl
        have hlt : ℓ < h₂.now := let ⟨_, hy⟩ := hp.asked; hy.lt
        refine safe_finish hx ⟨_, etag⟩ hI₂ ⟨a, ha.mono hle⟩ rfl hp hb (if_pos rfl)
          fun h₃ m hmn hle₃ hI₃ hst hb₃ => ?_
        rw [if_neg hmn]
        rw [← Hist.storeAt_mono hle₃ hlt] at hobj
        refine safe_evict hx hst htag hd hb₃ (fun _ => .inr ⟨hlt.trans_le (Hist.now_le hle₃), _, hobj, rfl⟩)
          fun h₄ x _ hI₄ hs₄ _ => ?_
        match x with
        | .ok () => exact ih hI₄ hs₄
        | .error .notFound => exact ih hI₄ hs₄
        | .error .preconditionFailed => exact safe_throwConflict hx hI₄ hs₄
        | .error .failed => exact appended_throw hs₄
    · match e with
      | .preconditionFailed => exact safe_throwConflict hx hI₂ hs₂
      | .notFound => exact appended_throw hs₂
      | .failed => exact appended_throw hs₂

theorem safe_advanceHead {head : CanonicalHead} {e : Etag} {a : ℕ} (hs : l.slots.Calm B → l.slots.Settled (lifetimes X l) t h)
    (ha : l.slots.ReadAt h t a head.incarnation)
    (hn : ∃ b, B.tags b e ∧ (lifetimes X l).next b (head.canonicalBytes X)) :
    Safe Sys (l.slots.Inv B (lifetimes X l)) t (advanceHead X l head e).run (Appended X l B t (some e)) h := by
  have hd : (lifetimes X l).stamp (head.canonicalBytes X) = head.incarnation.toNat := by simp
  rw [advanceHead, replaceHead, bind_assoc]
  refine safe_publish hx ha hd ?_ hs (fun h₂ ℓ y hle hI₂ hp hb ho hy => ?_) fun h₂ err _ hI₂ hs₂ hf => ?_
  · rintro e' ⟨⟩
    exact hn
  · match y, ho, hy with
    | none, _, hy => exact appended_throw fun hc => absurd (hy rfl) hc.1
    | some etag, ho, _ =>
      obtain ⟨htag, hobj⟩ := ho etag rfl
      have hlt : ℓ < h₂.now := let ⟨_, hy⟩ := hp.asked; hy.lt
      simp only [pure_bind, retireClosedEraPublication, bind_assoc]
      refine safe_finish hx ⟨head, etag⟩ hI₂ ⟨a, ha.mono hle⟩ rfl hp hb (by rw [if_pos rfl, pure_bind])
        fun h₃ m hmn hle₃ hI₃ hst hb₃ => ?_
      rw [if_neg hmn, bind_assoc]
      rw [← Hist.storeAt_mono hle₃ hlt] at hobj
      refine safe_evict hx hst htag hd hb₃ (fun _ => .inr ⟨hlt.trans_le (Hist.now_le hle₃), _, hobj, rfl⟩)
        fun h₄ x _ hI₄ hs₄ _ => ?_
      have hconflict : Safe Sys (l.slots.Inv B (lifetimes X l)) t
          (throwConflict X l >>= fun _ : Unit => (pure ⟨head, etag⟩ : KernelOp HeadRead)).run (Appended X l B t (some e)) h₄ := by
        rw [throwConflict_bind]
        exact safe_throwConflict hx hI₄ hs₄
      match x with
      | .ok () => exact hconflict
      | .error .notFound => exact hconflict
      | .error .preconditionFailed => exact hconflict
      | .error .failed => exact appended_throw hs₄
  · match err with
    | .preconditionFailed =>
      rw [throwConflict_bind]
      exact safe_throwConflict hx hI₂ hs₂
    | .notFound => exact appended_throw hs₂
    | .failed => exact appended_throw hs₂

/-! ### Appends -/

theorem safe_appendGenesis (record : CanonicalRecord) (hI : l.slots.Inv B (lifetimes X l) h)
    (hs : l.slots.Calm B → l.slots.Settled (lifetimes X l) t h) :
    Safe Sys (l.slots.Inv B (lifetimes X l)) t (appendGenesis X l record).run (Appended X l B t none) h := by
  refine safe_check hs fun _ _ => ?_
  split
  · exact appended_throw hs
  refine safe_step hx hI (every_publishRecord X allowsGet (allowsRecord _ _)) Settled.steady.imp hs
    (fun h₁ digest _ _ hI₁ hs₁ => ?_) fun _ _ _ _ hs₁ => appended_throw hs₁
  exact safe_createHead hx 0 digest none 8 hI₁ hs₁

theorem safe_appendGenesisBatch (records : List CanonicalRecord) (hI : l.slots.Inv B (lifetimes X l) h)
    (hs : l.slots.Calm B → l.slots.Settled (lifetimes X l) t h) :
    Safe Sys (l.slots.Inv B (lifetimes X l)) t (appendGenesisBatch X l records).run (Appended X l B t none) h := by
  refine safe_check hs fun terminal _ => ?_
  refine safe_step hx hI (every_publishRecords X allowsGet fun _ _ => allowsRecord _ _) Settled.steady.imp hs
    (fun h₁ _ _ _ hI₁ hs₁ => ?_) fun _ _ _ _ hs₁ => appended_throw hs₁
  exact safe_createHead hx _ _ _ 8 hI₁ hs₁

/-- The gate of a successor append: the counter names the lifetime of the head the caller expects. -/
theorem safe_ensureOpenEra {head : CanonicalHead} {f : Unit → KernelOp HeadRead} (hI : l.slots.Inv B (lifetimes X l) h)
    (hs : l.slots.Calm B → l.slots.Settled (lifetimes X l) t h)
    (hk : ∀ h₁ a, h ≤ h₁ → l.slots.Inv B (lifetimes X l) h₁ → l.slots.ReadAt h₁ t a head.incarnation →
      (l.slots.Calm B → l.slots.Settled (lifetimes X l) t h₁) →
      Safe Sys (l.slots.Inv B (lifetimes X l)) t (f ()).run (Appended X l B t c) h₁) :
    Safe Sys (l.slots.Inv B (lifetimes X l)) t (ensureOpenEra X l head >>= f).run (Appended X l B t c) h := by
  rw [ensureOpenEra, bind_assoc]
  refine safe_current hx hI Settled.steady.imp hs (fun h₁ n a hle hI₁ ha hs₁ => ?_) fun _ _ _ _ hs₁ => appended_throw hs₁
  by_cases hn : n = head.incarnation
  · rw [if_pos hn, pure_bind]
    exact hk h₁ a hle hI₁ (hn ▸ ha) hs₁
  · rw [if_neg hn, throwConflict_bind]
    exact safe_throwConflict hx hI₁ hs₁

/-- The read of the current head of a successor append finds the head the caller expects, under its etag. -/
theorem safe_loadExpected {expected : HeadRead} {a : ℕ} {n : UInt64} {f : Unit → KernelOp HeadRead}
    (ha : l.slots.ReadAt h t a n) (hs : l.slots.Calm B → l.slots.Settled (lifetimes X l) t h)
    (hk : ∀ h₁ b current, h ≤ h₁ → l.slots.Inv B (lifetimes X l) h₁ → l.slots.ReadAt h₁ t a n →
      (l.slots.Calm B → l.slots.Settled (lifetimes X l) t h₁) → CanonicalHead.fromBytes X l b = .ok current →
      B.tags b expected.etag → current.sameIdentity expected.head = true →
      Safe Sys (l.slots.Inv B (lifetimes X l)) t (f ()).run (Appended X l B t c) h₁) :
    Safe Sys (l.slots.Inv B (lifetimes X l)) t (loadExpected X l expected >>= f).run (Appended X l B t c) h := by
  rw [loadExpected, bind_assoc]
  refine safe_loadHead (Y := fun h => l.slots.ReadAt h t a n ∧ (l.slots.Calm B → l.slots.Settled (lifetimes X l) t h)) hx
    ((Steady.of_mono fun _ _ hh ha => ha.mono hh).and Settled.steady.imp) ⟨ha, hs⟩
    (fun h₁ b current e hle hI₁ ⟨ha₁, hs₁⟩ hd htag _ => ?_) fun _ _ _ _ hY => appended_throw hY.2
  match e, htag with
  | none, _ => exact appended_throw hs₁
  | some e, htag =>
    simp only [needEtag, pure_bind]
    by_cases hne : current.sameIdentity expected.head = false ∨ e ≠ expected.etag
    · rw [if_pos hne]
      exact appended_throw hs₁
    · rw [if_neg hne, pure_bind]
      simp only [not_or, Bool.not_eq_false, not_not] at hne
      exact hk h₁ b current hle hI₁ ha₁ hs₁ hd (hne.2 ▸ htag e rfl) hne.1

omit hx in
/-- What the caller expects is what is there. -/
theorem sameIdentity_eq {a b : CanonicalHead} (h : a.sameIdentity b = true) :
    a.generation = b.generation ∧ a.incarnation = b.incarnation ∧ a.position = b.position := by
  simp only [CanonicalHead.sameIdentity, Bool.and_eq_true, decide_eq_true_eq] at h
  obtain ⟨⟨⟨⟨-, hg⟩, hi⟩, hd⟩, -⟩ := h
  exact ⟨hg, hi, by rw [CanonicalHead.position, CanonicalHead.position, hg, hd]⟩

theorem safe_appendSuccessor (record : CanonicalRecord) (expected : HeadRead) (hI : l.slots.Inv B (lifetimes X l) h)
    (hs : l.slots.Calm B → l.slots.Settled (lifetimes X l) t h) :
    Safe Sys (l.slots.Inv B (lifetimes X l)) t (appendSuccessor X l record expected).run
      (Appended X l B t (some expected.etag)) h := by
  unfold appendSuccessor
  split
  · exact appended_throw hs
  refine safe_check hs fun _ hlineage => ?_
  refine safe_ensureOpenEra hx hI hs fun h₁ a _ hI₁ ha hs₁ => ?_
  split
  · exact safe_throwConflict hx hI₁ hs₁
  refine safe_loadExpected hx ha hs₁ fun h₂ b current _ hI₂ ha₂ hs₂ hd htag hsame => ?_
  obtain ⟨hg, hi, hpos⟩ := sameIdentity_eq hsame
  cases hn : checkedSucc expected.head.generation with
  | none => exact appended_throw hs₂
  | some next =>
    dsimp only
    split
    · exact appended_throw hs₂
    next hrec =>
    simp only [ne_eq, not_or, not_not] at hrec
    refine safe_step (X := fun h => l.slots.ReadAt h t a expected.head.incarnation ∧ (l.slots.Calm B → l.slots.Settled (lifetimes X l) t h)) hx hI₂
      (every_publishRecord X allowsGet (allowsRecord _ _)) ((Steady.of_mono fun _ _ hh ha => ha.mono hh).and Settled.steady.imp) ⟨ha₂, hs₂⟩
      (fun h₃ digest hdig _ hI₃ ⟨ha₃, hs₃⟩ => ?_) fun _ _ _ _ hY => appended_throw hY.2
    obtain rfl := hdig digest rfl
    refine safe_advanceHead hx hs₃ ha₃ ⟨b, htag, current, _, hd, rfl, rfl, hi.symm, [record], ?_, ?_⟩
    · have hseq : record.sequence.toNat = current.position.generation.toNat + 1 := by
        rw [hrec.1, toNat_of_checkedSucc hn, hpos]
        rfl
      exact .cons (sameIdentity_of_ensure hlineage) hseq (hrec.2.trans (by rw [hpos])) (hrec.1 ▸ .nil _)
    · exact hrec.2.symm

theorem safe_appendSuccessorBatch (records : List CanonicalRecord) (expected : HeadRead)
    (hI : l.slots.Inv B (lifetimes X l) h) (hs : l.slots.Calm B → l.slots.Settled (lifetimes X l) t h) :
    Safe Sys (l.slots.Inv B (lifetimes X l)) t (appendSuccessorBatch X l records expected).run
      (Appended X l B t (some expected.etag)) h := by
  unfold appendSuccessorBatch
  split
  · exact appended_throw hs
  split
  · exact safe_throwConflict hx hI hs
  refine safe_ensureOpenEra hx hI hs fun h₁ a _ hI₁ ha hs₁ => ?_
  refine safe_loadExpected hx ha hs₁ fun h₂ b current _ hI₂ ha₂ hs₂ hd htag hsame => ?_
  obtain ⟨hg, hi, hpos⟩ := sameIdentity_eq hsame
  cases hn : checkedSucc expected.head.generation with
  | none => exact appended_throw hs₂
  | some next =>
    refine safe_check hs₂ fun terminal hbatch => ?_
    refine safe_step (X := fun h => l.slots.ReadAt h t a expected.head.incarnation ∧
        (l.slots.Calm B → l.slots.Settled (lifetimes X l) t h)) hx hI₂
      (every_publishRecords X allowsGet fun _ _ => allowsRecord _ _) ((Steady.of_mono fun _ _ hh ha => ha.mono hh).and Settled.steady.imp)
      ⟨ha₂, hs₂⟩ (fun h₃ _ _ _ hI₃ ⟨ha₃, hs₃⟩ => ?_) fun _ _ _ _ hY => appended_throw hY.2
    refine safe_advanceHead hx hs₃ ha₃ ⟨b, htag, current, _, hd, rfl, rfl, hi.symm, records, ?_, rfl⟩
    have hseq : next.toNat = current.position.generation.toNat + 1 := by
      rw [toNat_of_checkedSucc hn, hpos]
      rfl
    exact follows_of_batch hseq (hpos ▸ hbatch)

/-! ### Destruction -/

omit hx in
/-- A destroy that gives up before it moved the counter. -/
theorem safe_quit {r : Except KernelError α} (hn : l.slots.NoBump t h) :
    Safe Sys (l.slots.Inv B (lifetimes X l)) t (.ret r : Prog Req Resp (Except KernelError α))
      (fun _ h' => l.slots.Calm B → l.slots.Closed t h') h :=
  Safe.ret fun _ hr _ => (hn.wait hr).closed

/-- The end of a destroy, once the tombstone is there. -/
theorem safe_bumpAndRemove {b : Bytes} {e : Etag} (hI : l.slots.Inv B (lifetimes X l) h) (hn : l.slots.NoBump t h)
    (hsaw : l.slots.SawOnly t e h) (hw : l.slots.Witnessed h.store) (htag : B.tags b e)
    (hb : B.Sound → (lifetimes X l).stamp b ≤ l.slots.count h.store) :
    Safe Sys (l.slots.Inv B (lifetimes X l)) t (do
      let _ ← bumpCounter counterErrors l.incarnationKey 8
      match ← deleteConditional l.headKey e with
      | .ok () | .error .notFound => pure ()
      | .error .preconditionFailed => throwConflict X l
      | .error .failed => unavailable "head deletion" : KernelOp Unit).run
      (fun _ h' => l.slots.Calm B → l.slots.Closed t h') h := by
  refine safe_bump hx hI hw hn hsaw (fun h₁ _ hle hI₁ hlt hsaw₁ => ?_) fun h₁ _ hn₁ => safe_quit hn₁
  refine safe_remove hx (hI₁.witnessed_store hle hw) htag (fun hB => (hb hB).trans_lt (hlt hB)) hsaw₁
    fun h₂ x _ hI₂ hc _ => ?_
  have hret : ∀ {p : KernelOp Unit}, p.run.Every l.slots.Spares (fun _ => True) →
      Safe Sys (l.slots.Inv B (lifetimes X l)) t p.run (fun _ h' => l.slots.Calm B → l.slots.Closed t h') h₂ := fun he =>
    (safe_spares hx he Closed.steady.imp hc).imp fun _ _ _ _ hq => hq.2
  match x with
  | .ok () => exact hret trivial
  | .error .notFound => exact hret trivial
  | .error .failed => exact hret trivial
  | .error .preconditionFailed => exact hret (every_throwConflict X allowsGet fun _ => trivial)

/-- A destroy that moved the counter saw the head before, and saw to it that it was gone after. -/
theorem safe_destroy (cause actor : Str) (ts : UInt64) (hfresh : ∀ i r x, ¬ h.Asked i t r x) :
    Safe Sys (l.slots.Inv B (lifetimes X l)) t (destroy X l cause actor ts).run
      (fun _ h' => l.slots.Calm B → l.slots.Closed t h') h := by
  have hn : l.slots.NoBump t h := fun β d c y => hfresh β _ _
  have hn₁ : ∀ {h₁ : History Call Res} x, Rely (l.slots.Inv B (lifetimes X l)) t h h₁ →
      l.slots.NoBump t (h₁.push (.ask t (.get l.headKey) x) h₁.store) := fun x hr => (hn.wait hr).push (by simp)
  refine safe_tryHead hx (fun h₁ hr o e head ho hd he hI => ?_) (fun h₁ hr _ _ x _ => ?_) fun h₁ hr err x hne _ => ?_
  · cases e with
    | none => exact safe_quit (hn₁ _ hr)
    | some e =>
      have htag : B.tags o.data e := he e rfl ▸ hr.inv.state.tagged _ _ ho
      have hsane : B.Sound → (lifetimes X l).stamp o.data ≤ l.slots.count h₁.store := fun hB =>
        hr.inv.state.sane hB o.data (by rw [cell, ho, Option.map_some])
      have hsaw : l.slots.SawOnly t e (h₁.push (.ask t (.get l.headKey) (.ok (o.data, some e))) h₁.store) := by
        intro i b e' ha
        rcases Hist.asked_push.1 ha with ha | ⟨-, ha⟩
        · exact absurd (hr.asked ha) (hfresh i _ _)
        · simp only [Label.ask.injEq] at ha
          have heq := eq_of_heq ha.2.2
          cases heq
          rfl
      refine safe_witness hx (hn₁ _ hr) hsaw fun h₂ x hle hI₂ hn₂ hsaw₂ hw => ?_
      have hsane₂ : B.Sound → (lifetimes X l).stamp o.data ≤ l.slots.count h₂.store := fun hB =>
        (hsane hB).trans (hI₂.count_store_le (Hist.le_push.trans hle) hB)
      rcases x with (_ | _ | _) | y
      · exact safe_quit hn₂
      · exact safe_bumpAndRemove hx hI₂ hn₂ hsaw₂ (hw (.inr rfl)) htag hsane₂
      · exact safe_quit hn₂
      · exact safe_bumpAndRemove hx hI₂ hn₂ hsaw₂ (hw (.inl ⟨y, rfl⟩)) htag hsane₂
  · exact safe_quit (hn₁ x hr)
  · cases err
    case stateHistoryIncomplete reference => exact absurd rfl (hne reference)
    all_goals exact safe_quit (hn₁ x hr)

/-! ### Reads that return a head -/

omit hx in
/-- What was stamped with a lifetime that had begun still is. -/
theorem begun_mono {h' : History Call Res} {n : ℕ} (hr : Rely (l.slots.Inv B (lifetimes X l)) t h h')
    (hn : B.Sound → n ≤ l.slots.count h.store) : B.Sound → n ≤ l.slots.count h'.store :=
  fun hB => (hn hB).trans (hr.inv.count_store_le hr.le hB)

theorem safe_readHead :
    Safe Sys (l.slots.Inv B (lifetimes X l)) t (readHead X l).run (fun r h' => ∀ hr, r = .ok hr → B.Sound →
      hr.head.incarnation.toNat ≤ l.slots.count h'.store) h := by
  refine safe_loadHead (Y := fun _ => True) hx (.of_mono fun _ _ _ => id) trivial
    (fun h₁ b head e _ _ _ _ _ hn => ?_) fun _ _ _ _ _ => Safe.ret fun _ _ => nofun
  cases e with
  | none => exact Safe.ret fun _ _ => nofun
  | some e =>
    refine Safe.ret fun h₂ hr₂ => ?_
    rintro hr ⟨⟩
    exact begun_mono hr₂ hn

/-- An existence read that finds nothing missed the head and then the tombstone. -/
theorem safe_readHeadState (ht : t < h.now) :
    Safe Sys (l.slots.Inv B (lifetimes X l)) t (readHeadState X l).run
      (fun r h' => (r = .ok .absent → l.slots.Missed h' t) ∧ ∀ hr, r = .ok (.present hr) → B.Sound →
        hr.head.incarnation.toNat ≤ l.slots.count h'.store) h := by
  have hret : ∀ (e : KernelError) {h₁ : History Call Res}, Safe Sys (l.slots.Inv B (lifetimes X l)) t
      (.ret (.error e : Except KernelError LineageHeadState))
        (fun r h' => (r = .ok .absent → l.slots.Missed h' t) ∧ ∀ hr, r = .ok (.present hr) → B.Sound →
          hr.head.incarnation.toNat ≤ l.slots.count h'.store) h₁ :=
    fun e _ => Safe.ret fun _ _ => ⟨(fun he => by cases he), fun hr he => by cases he⟩
  refine safe_tryHead hx (fun h₁ hr o e head ho hd he hI => ?_) (fun h₁ hr hnone _ x _ => ?_) fun h₁ hr err x hne _ => ?_
  · cases e with
    | none => exact hret _
    | some e =>
      have hsane : B.Sound → head.incarnation.toNat ≤ l.slots.count h₁.store := fun hB => by
        have hs := hr.inv.state.sane hB o.data (by rw [cell, ho, Option.map_some])
        rwa [lifetimes_stamp, stampOf_fromBytes hd] at hs
      refine Safe.ret fun h₂ hr₂ => ⟨(fun he => by cases he), ?_⟩
      rintro hr' ⟨⟩
      exact begun_mono hr₂ (by rwa [Hist.push_store])
  · -- the head was not there; the tombstone is looked for only now
    dsimp only
    rw [loadTombstone, bind_assoc]
    refine safe_download hx fun h₂ hr₂ y hey _ => ?_
    rcases y with (_ | _ | _) | ⟨bytes, _⟩
    rotate_left
    · exact hret _
    · exact hret _
    · dsimp only
      split
      · refine Safe.ret fun _ _ => ⟨(fun he => by cases he), fun hr he => by cases he⟩
      · exact hret _
    · refine Safe.ret fun h₃ hr₃ => ⟨fun _ => ⟨h₁.now, h₂.now, ?_, ?_, ?_, ?_, ?_⟩, fun _ he => by cases he⟩
      · exact ht.trans_le (Hist.now_le hr.le)
      · exact Hist.now_le (Hist.le_push.trans hr₂.le)
      · exact Hist.now_le (Hist.le_push.trans hr₃.le)
      · rw [← Hist.store_eq_storeAt (Hist.le_push.trans (hr₂.le.trans (Hist.le_push.trans hr₃.le)))]
        exact hnone
      · rw [← Hist.store_eq_storeAt (Hist.le_push.trans hr₃.le)]
        exact fun hw => hw (Backend.get_notFound hey)
  · cases err
    case stateHistoryIncomplete reference => exact absurd rfl (hne reference)
    all_goals exact hret _

end

end YeetzS3.Lineage
