import YeetzS3.Keyspace.Asks

/-!
# The operations of a key are safe

Every operation of `AtomicKeyspace` on one key keeps the invariant of its three objects whatever other
calls do meanwhile, and returns knowing what `Wrote` and `Closed` say. Each is proved along its program,
with one rule of `Publish` for every request that touches the key.
-/

namespace YeetzS3.Keyspace.Key

open Conc Slots

variable {Call : Type} {Res : Call → Type} {K : AtomicKeyspace} (O : Outside) (key : Key K)
  {Sys : System Store Req Resp Call Res} {B : Backend} {h : History Call Res} {t ℓ : ℕ} {n : UInt64}
  {d : Bytes} {c : Option Etag}

theorem allowsReads : AllowsReads K key.slots.Spares := ⟨fun _ _ => trivial, fun _ _ _ _ => trivial, fun _ _ => trivial⟩

theorem allowsChunks (O : Outside) (i v : UInt64) (bytes : Bytes) :
    key.slots.Spares (.put (chunkObjectKey K.ns key.name i v (hashEntry O bytes).digestHex) bytes none) := key.spare_chunk ..

/-- How the check of a fresh publication ends. -/
def Checked (B : Backend) (t : ℕ) (r : Except KeyspaceError StaleEra) (h : History Call Res) : Prop :=
  (key.slots.Calm B → key.slots.Settled lifetimes t h) ∧
    (r = .ok .fresh → ¬ B.faults → key.slots.Acked B lifetimes h t none)

variable {key}

theorem checked_of_ne {r : Except KeyspaceError StaleEra} (hr : r ≠ .ok .fresh)
    (hs : key.slots.Calm B → key.slots.Settled lifetimes t h) :
    Safe Sys (key.slots.Inv B lifetimes) t (.ret r) (key.Checked B t) h :=
  Safe.ret fun _ hr' => ⟨Settled.steady.imp.wait _ _ hr' hs, fun he => absurd he hr⟩

/-- How a create goes on after the check of its publication. -/
theorem safe_afterCheck {α : Type} {f : StaleEra → KeyOp α} {p : KeyOp StaleEra} {P : Prop} (hI : key.slots.Inv B lifetimes h)
    (hp : Safe Sys (key.slots.Inv B lifetimes) t p.run (key.Checked B t) h) (hP : P → ¬ B.faults)
    (hk : ∀ h₁ r, h ≤ h₁ → key.slots.Inv B lifetimes h₁ → (key.slots.Calm B → key.slots.Settled lifetimes t h₁) →
      (r = .fresh → P → key.slots.Acked B lifetimes h₁ t none) →
      Safe Sys (key.slots.Inv B lifetimes) t (f r).run (key.slots.Wrote B lifetimes P t none) h₁) :
    Safe Sys (key.slots.Inv B lifetimes) t (p >>= f).run (key.slots.Wrote B lifetimes P t none) h := by
  refine Safe.bindE hI (hp.imp ?_)
  rintro (err | r) h₁ hle hI₁ ⟨hs, hack⟩
  · exact (safe_throw hs : Safe Sys _ t _ _ h₁)
  · exact hk h₁ r hle hI₁ hs fun hr hP' => hack (by rw [hr]) (hP hP')

/-- A check of the input, before any request. -/
theorem safe_check {α β : Type} {x : Except KeyspaceError β} {f : β → KeyOp α} {P : Prop}
    (hs : key.slots.Calm B → key.slots.Settled lifetimes t h)
    (hk : ∀ b, x = .ok b → Safe Sys (key.slots.Inv B lifetimes) t (f b).run (key.slots.Wrote B lifetimes P t c) h) :
    Safe Sys (key.slots.Inv B lifetimes) t (check x >>= f).run (key.slots.Wrote B lifetimes P t c) h := by
  cases x with
  | error e => exact safe_throw hs
  | ok b => exact hk b rfl

section
variable (hx : ∀ s r x s', Sys.exec s r x s' → B.exec s r x s')
include hx

theorem safe_evictOwn (hst : key.slots.Stale h t n) (hd : lifetimes.stamp d = n.toNat)
    (hb : key.slots.Calm B → key.slots.SettledBut lifetimes t ℓ h)
    (hob : key.slots.Calm B → ℓ < h.now ∧ ∃ e, key.slots.object (h.storeAt (ℓ + 1)) = some ⟨d, e⟩) :
    Safe Sys (key.slots.Inv B lifetimes) t (evictOwn key.name key.slots.control d).run (key.Checked B t) h := by
  refine safe_download hx fun h₁ hr x hex hI => ?_
  have hle : h ≤ h₁.push (.ask t (.get key.slots.control) x) h₁.store := hr.le.trans Hist.le_push
  have hb₁ := (SettledBut.steady (B := B) (L := lifetimes)).imp.spare _ _ x h₁.store key.allowsReads.control
    (SettledBut.steady.imp.wait _ _ hr hb)
  -- a control other than the one published means that one did not stay
  have hchanged : key.slots.Calm B → (∀ e, key.slots.object h₁.store ≠ some ⟨d, e⟩) →
      key.slots.Changed (h₁.push (.ask t (.get key.slots.control) x) h₁.store) ℓ := by
    intro hc hne
    obtain ⟨hlt, e, ho⟩ := hob hc
    refine ⟨h₁.now + 1, Nat.lt_succ_of_lt (hlt.trans_le (Hist.now_le hr.le)), by rw [Hist.push_now], ?_⟩
    rw [Hist.storeAt_post Hist.at_push_now, Hist.storeAt_mono hle hlt, ho]
    exact hne e
  rcases x with (_ | _ | _) | ⟨data, _ | e⟩
  · refine checked_of_ne (by simp) fun hc => (hb₁ hc).settled_of_changed (hchanged hc fun e he => ?_)
    rw [object, Backend.get_notFound hex] at he
    cases he
  · exact checked_of_ne (by simp) fun hc => absurd (Backend.get_error hex (by simp)) hc.1
  · exact checked_of_ne (by simp) fun hc => absurd (Backend.get_error hex (by simp)) hc.1
  · refine checked_of_ne (by simp) fun hc => ?_
    obtain ⟨e, he⟩ := Backend.get_etag hc.1 hex
    cases he
  · obtain ⟨o, ho, rfl, he⟩ := Backend.get_ok hex
    obtain rfl := he e rfl
    dsimp only
    split
    swap
    · next hne =>
      refine checked_of_ne (by simp) fun hc => (hb₁ hc).settled_of_changed (hchanged hc fun e he => hne ?_)
      rw [object, ho] at he
      cases he
      rfl
    next hd' =>
    refine safe_evict hx (hst.mono hle) (hd' ▸ hr.inv.state.tagged _ _ ho) hd hb₁ (fun hc => ?_)
      fun h₂ y _ _ hs hf => ?_
    · obtain ⟨hlt, e, hoℓ⟩ := hob hc
      by_cases hee : e = o.etag
      · refine .inr ⟨hlt.trans_le (Hist.now_le hle), ⟨d, e⟩, ?_, hee⟩
        rw [Hist.storeAt_mono hle hlt, hoℓ]
      · refine .inl ⟨h₁.now + 1, Nat.lt_succ_of_lt (hlt.trans_le (Hist.now_le hr.le)), by rw [Hist.push_now], ?_⟩
        rw [Hist.storeAt_post Hist.at_push_now, Hist.storeAt_mono hle hlt, hoℓ, object]
        intro heq
        rw [heq] at ho
        cases ho
        exact hee rfl
    · rcases y with (_ | _ | _) | ⟨⟩
      · exact checked_of_ne (by simp) hs
      · exact checked_of_ne (by simp) hs
      · exact checked_of_ne (by simp) hs
      · exact checked_of_ne (by simp) hs

/-- The check of a fresh publication finds it in its open lifetime, or evicts it. -/
theorem safe_evictStaleEra (hI : key.slots.Inv B lifetimes h) (ha : ∃ a, key.slots.ReadAt h t a n)
    (hd : lifetimes.stamp d = n.toNat) (hp : ¬ B.faults → key.slots.Published B lifetimes h t ℓ n d none)
    (hb : key.slots.Calm B → key.slots.SettledBut lifetimes t ℓ h)
    (hob : key.slots.Calm B → ℓ < h.now ∧ ∃ e, key.slots.object (h.storeAt (ℓ + 1)) = some ⟨d, e⟩) :
    Safe Sys (key.slots.Inv B lifetimes) t (evictStaleEra K key.name key.slots.control n d).run (key.Checked B t) h := by
  refine safe_recheck (P := ¬ B.faults) hx hI ha hp hb And.left (fun h₁ _ _ hack hs => ?_)
    (fun h₁ m hmn hle hI₁ hst hb₁ => ?_) fun h₁ err hf => checked_of_ne (by simp) fun hc => absurd hf hc.1
  · rw [if_pos rfl]
    have hack : ¬ B.faults → key.slots.Acked B lifetimes h₁ t none := fun hf => ⟨ℓ, n, d, hack hf⟩
    exact Safe.ret fun _ hr => ⟨Settled.steady.imp.wait _ _ hr hs, fun _ => Acked.steady.imp.wait _ _ hr hack⟩
  · rw [if_neg hmn]
    refine safe_evictOwn hx hst hd hb₁ fun hc => ?_
    obtain ⟨hlt, e, ho⟩ := hob hc
    exact ⟨hlt.trans_le (Hist.now_le hle), e, by rw [Hist.storeAt_mono hle hlt, ho]⟩

/-- The end of a compare-and-swap that published `d` at step `ℓ` under etag `e`, as far as `P`. -/
theorem safe_finishValueCas {P : Prop} {b : Bytes} {e : Etag} (hI : key.slots.Inv B lifetimes h)
    (ha : ∃ a, key.slots.ReadAt h t a n) (htag : B.tags b e) (hbn : lifetimes.stamp b = n.toNat) (hP : key.slots.Calm B → P)
    (hp : P → key.slots.Published B lifetimes h t ℓ n d c)
    (hb : key.slots.Calm B → key.slots.SettledBut lifetimes t ℓ h)
    (hob : key.slots.Calm B → ℓ < h.now ∧ ∃ o, key.slots.object (h.storeAt (ℓ + 1)) = some o ∧ o.etag = e) :
    Safe Sys (key.slots.Inv B lifetimes) t (finishValueCasAfterPublish K key.name n e).run
      (key.slots.Wrote B lifetimes P t c) h := by
  refine safe_recheck (P := P) hx hI ha hp hb hP (fun h₁ _ _ hack hs => ?_)
    (fun h₁ m hmn hle hI₁ hst hb₁ => ?_) fun h₁ err hf => safe_fault hf
  · rw [if_pos rfl]
    exact safe_pure hs fun hP' => ⟨ℓ, n, d, hack hP'⟩
  · rw [if_neg hmn, key.path]
    refine safe_evict (b := b) hx hst htag hbn hb₁ (fun hc => .inr ?_) fun h₂ y _ _ hs hf => ?_
    · obtain ⟨hlt, o, ho⟩ := hob hc
      exact ⟨hlt.trans_le (Hist.now_le hle), o, by rw [Hist.storeAt_mono hle hlt]; exact ho⟩
    · match y, hf with
      | .ok (), _ => exact safe_throw hs
      | .error .notFound, _ => exact safe_throw hs
      | .error .preconditionFailed, _ => exact safe_throw hs
      | .error .failed, _ => exact safe_throw hs

/-! ### Creation -/

theorem safe_createInline (value : Bytes) (tries : ℕ) (hI : key.slots.Inv B lifetimes h)
    (hs : key.slots.Calm B → key.slots.Settled lifetimes t h) :
    Safe Sys (key.slots.Inv B lifetimes) t (createInline K key.name key.slots.control value tries).run
      (key.slots.Wrote B lifetimes (¬ B.faults) t none) h := by
  induction tries generalizing h with
  | zero => exact safe_throw hs
  | succ tries ih =>
    refine safe_current hx hI Settled.steady.imp hs (fun h₁ n a _ hI₁ ha hs₁ => ?_) fun _ _ _ _ hs₁ => safe_throw hs₁
    have hd : lifetimes.stamp (ValueEnvelope.mk n 0 value).encode = n.toNat := by simp [lifetimes]
    refine safe_publish hx ha hd (by simp) hs₁ (fun h₂ ℓ y hle hI₂ hp hb _ _ => ?_) fun h₂ e _ _ hs₂ hf => ?_
    · have hob : key.slots.Calm B → ℓ < h₂.now ∧ ∃ e, key.slots.object (h₂.storeAt (ℓ + 1)) =
          some ⟨(ValueEnvelope.mk n 0 value).encode, e⟩ := by
        intro hc
        obtain ⟨y, hy⟩ := hp.asked
        obtain ⟨-, e, -, hins, -⟩ := Backend.put_ok (hI₂.exec hy).1
        exact ⟨hy.lt, e, by rw [hins, object, AList.lookup_insert]⟩
      refine safe_afterCheck hI₂ (safe_evictStaleEra hx hI₂ ⟨a, ha.mono hle⟩ hd (fun _ => hp) hb hob) id
        fun h₃ r _ hI₃ hs₃ hack => ?_
      cases r with
      | fresh => exact safe_pure hs₃ (hack rfl)
      | retry => exact ih hI₃ hs₃
      | conflict e => exact safe_throw hs₃
    · cases e with
      | preconditionFailed => exact safe_throw hs₂
      | notFound => exact safe_throw hs₂
      | failed => exact safe_throw hs₂

/-- A published manifest is either this call's last publication or was found after a fault. -/
theorem safe_publishCreate {α : Type} {fuel a : ℕ} {manifest : ValueManifest} {f : Etag → KeyOp α}
    {Q : Except KeyspaceError α → History Call Res → Prop} (ha : key.slots.ReadAt h t a n)
    (hd : manifest.incarnation = n)
    (hs : key.slots.Calm B → key.slots.Settled lifetimes t h)
    (hk : ∀ h₁ ℓ etag, h ≤ h₁ → key.slots.Inv B lifetimes h₁ →
      (¬ B.faults → key.slots.Published B lifetimes h₁ t ℓ n manifest.encode none) →
      (key.slots.Calm B → key.slots.SettledBut lifetimes t ℓ h₁) →
      (key.slots.Calm B → ℓ < h₁.now ∧ ∃ e, key.slots.object (h₁.storeAt (ℓ + 1)) = some ⟨manifest.encode, e⟩) →
      Safe Sys (key.slots.Inv B lifetimes) t (f etag).run Q h₁)
    (herr : ∀ h₁ err, (key.slots.Calm B → key.slots.Settled lifetimes t h₁) →
      Safe Sys (key.slots.Inv B lifetimes) t (throw err : KeyOp α).run Q h₁) :
    Safe Sys (key.slots.Inv B lifetimes) t
      (publishCreate O K fuel key.name key.slots.control manifest >>= f).run Q h := by
  rw [publishCreate, bind_assoc]
  have hst : lifetimes.stamp manifest.encode = n.toNat := by simp [lifetimes, hd]
  refine safe_publish hx ha hst (by simp) hs (fun h₁ ℓ y hle hI₁ hp hb ho hy => ?_) fun h₁ e hle hI₁ hs₁ hf => ?_
  · cases y with
    | none => exact herr h₁ _ fun hc => absurd (hy rfl) hc.1
    | some etag =>
      obtain ⟨y, hy⟩ := hp.asked
      exact hk h₁ ℓ etag hle hI₁ (fun _ => hp) hb fun _ => ⟨hy.lt, etag, (ho etag rfl).2⟩
  -- after a failure only an adjudication can go on, and nothing is claimed then
  have hfault : B.faults → ∀ g : Ambiguity → KeyOp Etag, (∀ etag, g (.landed (some etag)) = pure etag) →
      (∃ e, g (.landed none) = throw e) → (∃ e, g .lostConflict = throw e) → (∃ e, g .ambiguous = throw e) →
      Safe Sys (key.slots.Inv B lifetimes) t
        ((adjudicateManifestPut O K fuel key.name key.slots.control manifest >>= g) >>= f).run Q h₁ := by
    rintro hf g hland ⟨e₁, hnone⟩ ⟨e₂, hlost⟩ ⟨e₃, hdoubt⟩
    rw [bind_assoc]
    refine safe_step (X := fun _ => True) hx hI₁ (every_adjudicate O key.allowsReads _ _ key.allowsReads.control _) (.of_mono fun _ _ _ => id) trivial
      (fun h₂ r _ hle₂ hI₂ _ => ?_) fun h₂ err _ _ _ => herr h₂ err fun hc => absurd hf hc.1
    rcases r with (_ | etag) | _ | _
    · rw [hnone]
      exact herr h₂ _ fun hc => absurd hf hc.1
    · rw [hland]
      exact hk h₂ 0 etag (hle.trans hle₂) hI₂ (absurd hf) (fun hc => absurd hf hc.1) fun hc => absurd hf hc.1
    · rw [hlost]
      exact herr h₂ _ fun hc => absurd hf hc.1
    · rw [hdoubt]
      exact herr h₂ _ fun hc => absurd hf hc.1
  cases e with
  | preconditionFailed => exact herr h₁ _ hs₁
  | notFound => exact hfault (hf (by simp)) _ (fun _ => rfl) ⟨_, rfl⟩ ⟨_, rfl⟩ ⟨_, rfl⟩
  | failed => exact hfault (hf (by simp)) _ (fun _ => rfl) ⟨_, rfl⟩ ⟨_, rfl⟩ ⟨_, rfl⟩

theorem safe_createChunked (fuel : ℕ) (value : Bytes) (commitIds : ℕ → Bytes) (tries : ℕ)
    (hI : key.slots.Inv B lifetimes h) (hs : key.slots.Calm B → key.slots.Settled lifetimes t h) :
    Safe Sys (key.slots.Inv B lifetimes) t
      (createChunked O K fuel key.name key.slots.control value commitIds tries).run
      (key.slots.Wrote B lifetimes (¬ B.faults) t none) h := by
  induction tries generalizing h with
  | zero => exact safe_throw hs
  | succ tries ih =>
    refine safe_current hx hI Settled.steady.imp hs (fun h₁ n a _ hI₁ ha hs₁ => ?_) fun _ _ _ _ hs₁ => safe_throw hs₁
    refine safe_step (X := fun h => key.slots.ReadAt h t a n ∧ (key.slots.Calm B → key.slots.Settled lifetimes t h)) hx hI₁
      (every_stageChunks O key.allowsReads (key.allowsChunks O) ..)
      ((Steady.of_mono fun _ _ hh ha => ha.mono hh).and Settled.steady.imp) ⟨ha, hs₁⟩
      (fun h₂ manifest hm _ hI₂ ⟨ha₂, hs₂⟩ => ?_) fun _ _ _ _ hX => safe_throw hX.2
    obtain ⟨hmi, -⟩ := hm manifest rfl
    refine safe_publishCreate O hx ha₂ hmi hs₂ (fun h₃ ℓ etag hle₃ hI₃ hp hb hob => ?_) fun _ _ hs₃ => safe_throw hs₃
    have hd : lifetimes.stamp manifest.encode = n.toNat := by simp [lifetimes, hmi]
    refine safe_afterCheck hI₃ (hmi ▸ safe_evictStaleEra hx hI₃ ⟨a, ha₂.mono hle₃⟩ hd hp hb hob) id
      fun h₄ r _ hI₄ hs₄ hack => ?_
    cases r with
    | fresh => exact safe_pure hs₄ (hack rfl)
    | retry => exact ih hI₄ hs₄
    | conflict e => exact safe_throw hs₄

theorem safe_create (fuel : ℕ) (value : Bytes) (commitIds : ℕ → Bytes) (hI : key.slots.Inv B lifetimes h)
    (hs : key.slots.Calm B → key.slots.Settled lifetimes t h) :
    Safe Sys (key.slots.Inv B lifetimes) t (create O K fuel key.name value commitIds).run
      (key.slots.Wrote B lifetimes (¬ B.faults) t none) h := by
  refine safe_check hs fun _ _ => ?_
  split
  · exact safe_throw hs
  refine safe_check hs fun path hpath => ?_
  obtain rfl : key.slots.control = path := Except.ok.inj (key.path.symm.trans hpath)
  split
  · exact safe_createChunked O hx fuel value commitIds 8 hI hs
  · exact safe_createInline hx value 8 hI hs

theorem safe_streamCreate (fuel : ℕ) (bufs : List Bytes) (commitId : Bytes) (hI : key.slots.Inv B lifetimes h)
    (hs : key.slots.Calm B → key.slots.Settled lifetimes t h) :
    Safe Sys (key.slots.Inv B lifetimes) t (streamCreate O K fuel key.name bufs commitId).run
      (key.slots.Wrote B lifetimes (¬ B.faults) t none) h := by
  simp only [streamCreate, beginStreamCreate, bind_assoc, pure_bind]
  refine safe_check hs fun _ _ => safe_check hs fun _ _ => ?_
  refine safe_current hx hI Settled.steady.imp hs (fun h₁ n a _ hI₁ ha hs₁ => ?_) fun _ _ _ _ hs₁ => safe_throw hs₁
  have hX : key.slots.Steady B lifetimes t fun h : History Call Res =>
      key.slots.ReadAt h t a n ∧ (key.slots.Calm B → key.slots.Settled lifetimes t h) :=
    (Steady.of_mono fun _ _ hh ha => ha.mono hh).and Settled.steady.imp
  refine safe_step hx hI₁ (every_ensureUnfenced key.allowsReads _) hX ⟨ha, hs₁⟩
    (fun h₂ _ _ _ hI₂ hX₂ => ?_) fun _ _ _ _ hX => safe_throw hX.2
  refine safe_step hx hI₂ (every_writeAll O key.allowsReads (key.allowsChunks O) ..) hX hX₂
    (fun h₃ w hw _ hI₃ hX₃ => ?_) fun _ _ _ _ hX => safe_throw hX.2
  refine safe_step hx hI₃ (every_sealValue O key.allowsReads (key.allowsChunks O) ..) hX hX₃
    (fun h₄ manifest hm _ hI₄ ⟨ha₄, hs₄⟩ => ?_) fun _ _ _ _ hX => safe_throw hX.2
  have hmi : manifest.incarnation = n := (hm manifest rfl).1.trans (hw w rfl).1
  refine safe_publishCreate O hx ha₄ hmi hs₄ (fun h₅ ℓ etag hle₅ hI₅ hp hb hob => ?_) fun _ _ hs₅ => safe_throw hs₅
  have hd : lifetimes.stamp manifest.encode = n.toNat := by simp [lifetimes, hmi]
  refine safe_afterCheck hI₅ (hmi ▸ safe_evictStaleEra hx hI₅ ⟨a, ha₄.mono hle₅⟩ hd hp hb hob) id
    fun h₆ r _ _ hs₆ hack => ?_
  cases r with
  | fresh => exact safe_pure hs₆ (hack rfl)
  | retry => exact safe_throw hs₆
  | conflict e => exact safe_throw hs₆

/-! ### Compare-and-swap -/

/-- A lost compare-and-swap looks at what it lost to. -/
theorem safe_casConflict {α : Type} {P : Prop} {e : Etag} (hI : key.slots.Inv B lifetimes h)
    (hs : key.slots.Calm B → key.slots.Settled lifetimes t h) :
    Safe Sys (key.slots.Inv B lifetimes) t (casConflict O K key.name e >>= fun err => (throw err : KeyOp α)).run
      (key.slots.Wrote B lifetimes P t c) h :=
  safe_step hx hI (every_casConflict O key.allowsReads ..) Settled.steady.imp hs (fun _ _ _ _ _ hs₁ => safe_throw hs₁)
    fun _ _ _ _ hs₁ => safe_throw hs₁

/-- What goes on behind an open lifetime has read it open. -/
theorem safe_ensureOpen {α : Type} {P : Prop} {f : Unit → KeyOp α} (hI : key.slots.Inv B lifetimes h)
    (hs : key.slots.Calm B → key.slots.Settled lifetimes t h)
    (hk : ∀ h₁ a, h ≤ h₁ → key.slots.Inv B lifetimes h₁ → key.slots.ReadAt h₁ t a n →
      (key.slots.Calm B → key.slots.Settled lifetimes t h₁) →
      Safe Sys (key.slots.Inv B lifetimes) t (f ()).run (key.slots.Wrote B lifetimes P t c) h₁) :
    Safe Sys (key.slots.Inv B lifetimes) t (ensureOpenValueEra K key.name n >>= f).run
      (key.slots.Wrote B lifetimes P t c) h := by
  rw [ensureOpenValueEra, bind_assoc]
  refine safe_current hx hI Settled.steady.imp hs (fun h₁ m a hle hI₁ ha hs₁ => ?_) fun _ _ _ _ hs₁ => safe_throw hs₁
  split
  · next hm =>
    subst hm
    exact hk h₁ a hle hI₁ ha hs₁
  · exact safe_throw hs₁

/-- What a compare-and-swap binds: the control tagged as expected, in a lifetime read open after it, and the
version after its own. -/
theorem safe_bindSuccessor {α : Type} {P : Prop} {operation : String} {expected : Etag} {f : UInt64 × UInt64 → KeyOp α}
    (hs : key.slots.Calm B → key.slots.Settled lifetimes t h)
    (hk : ∀ h₁ v a b, key.slots.Inv B lifetimes h₁ → key.slots.ReadAt h₁ t a (stampOf b).incarnation →
      B.tags b expected → v.toNat = (stampOf b).version.toNat + 1 →
      (key.slots.Calm B → key.slots.Settled lifetimes t h₁) →
      Safe Sys (key.slots.Inv B lifetimes) t (f ((stampOf b).incarnation, v)).run (key.slots.Wrote B lifetimes P t c) h₁) :
    Safe Sys (key.slots.Inv B lifetimes) t
      (bindSuccessor O K operation key.name key.slots.control expected >>= f).run (key.slots.Wrote B lifetimes P t c) h := by
  rw [bindSuccessor, bind_assoc]
  refine safe_download hx fun h₁ hr x hex hI => ?_
  have hs₁ := (Settled.steady (B := B) (L := lifetimes)).imp.spare _ _ x h₁.store key.allowsReads.control
    (Settled.steady.imp.wait _ _ hr hs)
  match x, hex, hI, hs₁ with
  | .error .notFound, _, _, hs₁ => exact safe_throw hs₁
  | .error .preconditionFailed, _, _, hs₁ => exact safe_throw hs₁
  | .error .failed, _, _, hs₁ => exact safe_throw hs₁
  | .ok (_, none), _, _, hs₁ => exact safe_throw hs₁
  | .ok (data, some e), hex, hI, hs₁ =>
    obtain ⟨o, ho, rfl, he⟩ := Backend.get_ok hex
    have htag : B.tags o.data e := he e rfl ▸ hr.inv.state.tagged _ _ ho
    dsimp only
    split
    · rw [bind_assoc]
      exact safe_casConflict O hx hI hs₁
    next hee =>
    rw [not_not] at hee
    rw [bind_assoc]
    refine safe_check hs₁ fun control hcontrol => ?_
    have hstamp := stampOf_of_decode hcontrol
    rw [bind_assoc]
    refine safe_ensureOpen hx hI hs₁ fun h₂ a _ hI₂ ha hs₂ => ?_
    cases hv : checkedSucc control.version with
    | none => exact safe_throw hs₂
    | some v =>
      have := hk h₂ v a o.data hI₂ (hstamp ▸ ha) (hee ▸ htag) (hstamp ▸ toNat_of_checkedSucc hv) hs₂
      rw [hstamp] at this
      exact this

theorem safe_compareExchangeInline {expected : Etag} {v : UInt64} {a : ℕ} {b : Bytes} (value : Bytes)
    (ha : key.slots.ReadAt h t a (stampOf b).incarnation) (htag : B.tags b expected)
    (hv : v.toNat = (stampOf b).version.toNat + 1) (hs : key.slots.Calm B → key.slots.Settled lifetimes t h) :
    Safe Sys (key.slots.Inv B lifetimes) t
      (compareExchangeInline O K key.name key.slots.control expected (stampOf b).incarnation v value).run
      (key.slots.Wrote B lifetimes (¬ B.faults) t (some expected)) h := by
  have hd : lifetimes.stamp (ValueEnvelope.mk (stampOf b).incarnation v value).encode = (stampOf b).incarnation.toNat := by
    simp [lifetimes]
  have hnext : ∀ e, some expected = some e → ∃ b', B.tags b' e ∧
      lifetimes.next b' (ValueEnvelope.mk (stampOf b).incarnation v value).encode := by
    rintro e ⟨⟩
    exact ⟨b, htag, next_of_stamp (by simp) hv⟩
  refine safe_publish hx ha hd hnext hs (fun h₁ ℓ y hle hI₁ hp hb ho hy => ?_) fun h₁ e _ hI₁ hs₁ _ => ?_
  · cases y with
    | none => exact safe_fault (hy rfl)
    | some etag =>
      obtain ⟨htag', hobj⟩ := ho etag rfl
      obtain ⟨y, hy⟩ := hp.asked
      exact safe_finishValueCas hx hI₁ ⟨a, ha.mono hle⟩ htag' hd And.left (fun _ => hp) hb
        fun _ => ⟨hy.lt, _, hobj, rfl⟩
  · cases e with
    | preconditionFailed => exact safe_casConflict O hx hI₁ hs₁
    | notFound => exact safe_throw hs₁
    | failed => exact safe_throw hs₁

/-- A manifest that is found to have landed is tagged by an etag of a control of its lifetime. -/
theorem safe_adjudicate {α : Type} {fuel : ℕ} {manifest : ValueManifest} {f : Ambiguity → KeyOp α}
    {Q : Except KeyspaceError α → History Call Res → Prop} (hI : key.slots.Inv B lifetimes h)
    (hk : ∀ h₁ r, h ≤ h₁ → key.slots.Inv B lifetimes h₁ → (∀ e, r = .landed (some e) →
      ∃ b, B.tags b e ∧ lifetimes.stamp b = manifest.incarnation.toNat) →
      Safe Sys (key.slots.Inv B lifetimes) t (f r).run Q h₁)
    (herr : ∀ h₁ err, Safe Sys (key.slots.Inv B lifetimes) t (throw err : KeyOp α).run Q h₁) :
    Safe Sys (key.slots.Inv B lifetimes) t
      (adjudicateManifestPut O K fuel key.name key.slots.control manifest >>= f).run Q h := by
  rw [adjudicateManifestPut, bind_assoc]
  refine safe_step (X := fun _ => True) hx hI (every_seqRetired key.allowsReads fuel key.name) (.of_mono fun _ _ _ => id)
    trivial (fun h₁ r _ hle hI₁ _ => ?_) fun _ _ _ _ _ => herr _ _
  match r with
  | some floor => exact hk h₁ .ambiguous hle hI₁ (by simp)
  | none =>
    dsimp only
    rw [bind_assoc]
    refine safe_download hx fun h₂ hr x hex hI₂ => ?_
    have hle₂ : h ≤ h₂.push (.ask t (.get key.slots.control) x) h₂.store := hle.trans (hr.le.trans Hist.le_push)
    match x, hex, hI₂, hle₂ with
    | .error .notFound, _, hI₂, hle₂ => exact hk _ .ambiguous hle₂ hI₂ (by simp)
    | .error .preconditionFailed, _, _, _ => exact herr _ _
    | .error .failed, _, _, _ => exact herr _ _
    | .ok (data, e), hex, hI₂, hle₂ =>
      obtain ⟨o, ho, rfl, he⟩ := Backend.get_ok hex
      dsimp only
      cases hc : ControlEnvelope.decode O key.name o.data with
      | error err => exact herr _ _
      | ok control =>
        rw [bind_assoc]
        have hstamp := stampOf_of_decode hc
        change Safe _ _ _ (ExceptT.run (_ >>= f)) _ _
        split
        · next hm =>
          match control with
          | .inline _ => exact hk _ .lostConflict hle₂ hI₂ (by simp)
          | .chunked observed =>
            dsimp only
            split
            · refine hk _ (.landed e) hle₂ hI₂ fun e' he' => ?_
              cases he'
              refine ⟨o.data, he e' rfl ▸ hr.inv.state.tagged _ _ ho, ?_⟩
              simp only [lifetimes, hstamp, hm.1]
            · exact hk _ .lostConflict hle₂ hI₂ (by simp)
        · exact hk _ .ambiguous hle₂ hI₂ (by simp)

theorem safe_publishSuccessor {noEtag : String} {fuel : ℕ} {expected : Etag} {manifest : ValueManifest} {b : Bytes}
    (hI : key.slots.Inv B lifetimes h) (htag : B.tags b expected) (hi : manifest.incarnation = (stampOf b).incarnation)
    (hv : manifest.version.toNat = (stampOf b).version.toNat + 1)
    (hs : key.slots.Calm B → key.slots.Settled lifetimes t h) :
    Safe Sys (key.slots.Inv B lifetimes) t
      (publishSuccessor O K noEtag fuel key.name key.slots.control expected manifest).run
      (key.slots.Wrote B lifetimes (¬ B.faults) t (some expected)) h := by
  have hd : lifetimes.stamp manifest.encode = manifest.incarnation.toNat := by simp [lifetimes]
  have hnext : ∀ e, some expected = some e → ∃ b', B.tags b' e ∧ lifetimes.next b' manifest.encode := by
    rintro e ⟨⟩
    exact ⟨b, htag, next_of_stamp (by rw [stampOf_manifest, hi]) hv⟩
  refine safe_ensureOpen hx hI hs fun h₁ a _ hI₁ ha hs₁ => ?_
  refine safe_publish hx ha hd hnext hs₁ (fun h₂ ℓ y hle hI₂ hp hb ho hy => ?_) fun h₂ e hle hI₂ hs₂ hf => ?_
  · cases y with
    | none => exact safe_fault (hy rfl)
    | some etag =>
      obtain ⟨htag', hobj⟩ := ho etag rfl
      obtain ⟨y, hy⟩ := hp.asked
      exact safe_finishValueCas hx hI₂ ⟨a, ha.mono hle⟩ htag' hd And.left (fun _ => hp) hb fun _ => ⟨hy.lt, _, hobj, rfl⟩
  -- after a failure only an adjudication can go on, and nothing is claimed then
  have hfault : B.faults → ∀ g : Ambiguity → KeyOp Etag,
      (∀ etag, g (.landed (some etag)) = finishValueCasAfterPublish K key.name manifest.incarnation etag) →
      (∃ e, g (.landed none) = throw e) → (g .lostConflict = do throw (← casConflict O K key.name expected)) →
      (∃ e, g .ambiguous = throw e) → Safe Sys (key.slots.Inv B lifetimes) t
        (adjudicateManifestPut O K fuel key.name key.slots.control manifest >>= g).run
        (key.slots.Wrote B lifetimes (¬ B.faults) t (some expected)) h₂ := by
    rintro hf g hland ⟨e₁, hnone⟩ hlost ⟨e₂, hdoubt⟩
    refine safe_adjudicate O hx hI₂ (fun h₃ r hle₃ hI₃ hr => ?_) fun _ _ => safe_fault hf
    rcases r with (_ | etag) | _ | _
    · rw [hnone]
      exact safe_fault hf
    · obtain ⟨b', htag', hb'⟩ := hr etag rfl
      have hp : ¬ B.faults → key.slots.Published B lifetimes h₃ t 0 manifest.incarnation [] (some expected) := absurd hf
      rw [hland]
      exact safe_finishValueCas hx hI₃ ⟨a, (ha.mono hle).mono hle₃⟩ htag' hb' And.left hp (fun hc => absurd hf hc.1)
        fun hc => absurd hf hc.1
    · rw [hlost]
      exact safe_casConflict O hx hI₃ fun hc => absurd hf hc.1
    · rw [hdoubt]
      exact safe_fault hf
  cases e with
  | preconditionFailed => exact safe_casConflict O hx hI₂ hs₂
  | notFound => exact hfault (hf (by simp)) _ (fun _ => rfl) ⟨_, rfl⟩ rfl ⟨_, rfl⟩
  | failed => exact hfault (hf (by simp)) _ (fun _ => rfl) ⟨_, rfl⟩ rfl ⟨_, rfl⟩

theorem safe_compareExchange (fuel : ℕ) (expected : Etag) (value commitId : Bytes)
    (hs : key.slots.Calm B → key.slots.Settled lifetimes t h) :
    Safe Sys (key.slots.Inv B lifetimes) t (compareExchange O K fuel key.name expected value commitId).run
      (key.slots.Wrote B lifetimes (¬ B.faults) t (some expected)) h := by
  refine safe_check hs fun _ _ => ?_
  split
  · exact safe_throw hs
  refine safe_check hs fun path hpath => ?_
  obtain rfl : key.slots.control = path := Except.ok.inj (key.path.symm.trans hpath)
  refine safe_bindSuccessor O hx hs fun h₁ v a b hI₁ ha htag hv hs₁ => ?_
  dsimp only
  split
  · refine safe_step hx hI₁ (every_stageChunks O key.allowsReads (key.allowsChunks O) ..) Settled.steady.imp hs₁
      (fun h₂ manifest hm _ hI₂ hs₂ => ?_) fun _ _ _ _ hs₂ => safe_throw hs₂
    obtain ⟨hmi, hmv⟩ := hm manifest rfl
    exact safe_publishSuccessor O hx hI₂ htag hmi (hmv ▸ hv) hs₂
  · exact safe_compareExchangeInline O hx value ha htag hv hs₁

theorem safe_streamCompareExchange (fuel : ℕ) (expected : Etag) (bufs : List Bytes) (commitId : Bytes)
    (hs : key.slots.Calm B → key.slots.Settled lifetimes t h) :
    Safe Sys (key.slots.Inv B lifetimes) t (streamCompareExchange O K fuel key.name expected bufs commitId).run
      (key.slots.Wrote B lifetimes (¬ B.faults) t (some expected)) h := by
  simp only [streamCompareExchange, beginStreamCompareExchange, bind_assoc, pure_bind]
  refine safe_check hs fun _ _ => safe_check hs fun path hpath => ?_
  obtain rfl : key.slots.control = path := Except.ok.inj (key.path.symm.trans hpath)
  refine safe_bindSuccessor O hx hs fun h₁ v a b hI₁ _ htag hv hs₁ => ?_
  refine safe_step hx hI₁ (every_ensureUnfenced key.allowsReads _) Settled.steady.imp hs₁
    (fun h₂ _ _ _ hI₂ hs₂ => ?_) fun _ _ _ _ hs₂ => safe_throw hs₂
  refine safe_step hx hI₂ (every_writeAll O key.allowsReads (key.allowsChunks O) ..) Settled.steady.imp hs₂
    (fun h₃ w hw _ hI₃ hs₃ => ?_) fun _ _ _ _ hs₃ => safe_throw hs₃
  refine safe_step hx hI₃ (every_sealValue O key.allowsReads (key.allowsChunks O) ..) Settled.steady.imp hs₃
    (fun h₄ manifest hm _ hI₄ hs₄ => ?_) fun _ _ _ _ hs₄ => safe_throw hs₄
  obtain ⟨hwi, hwv⟩ := hw w rfl
  obtain ⟨hmi, hmv⟩ := hm manifest rfl
  have hmv' : manifest.version.toNat = (stampOf b).version.toNat + 1 := by
    rw [hmv, hwv]
    exact hv
  rw [commitCompareExchange, map_eq_pure_bind]
  refine Safe.bindE hI₄ ((safe_publishSuccessor O hx hI₄ htag (hmi.trans hwi) hmv' hs₄).imp ?_)
  rintro (err | etag) h₅ _ _ ⟨hs₅, hack⟩
  · exact (safe_throw hs₅ : Safe Sys _ t _ _ h₅)
  · exact (safe_pure hs₅ (hack etag rfl) : Safe Sys _ t _ _ h₅)

/-! ### Destruction -/

omit hx in
/-- A destroy that gives up before it moved the counter. -/
theorem safe_quit {α : Type} {p : KeyOp α} {r : Except KeyspaceError α} (hp : p.run = .ret r) (hn : key.slots.NoBump t h) :
    Safe Sys (key.slots.Inv B lifetimes) t p.run (fun _ h' => key.slots.Calm B → key.slots.Closed t h') h := by
  rw [hp]
  exact Safe.ret fun _ hr _ => (hn.wait hr).closed

/-- The end of a destroy, once the tombstone is there. -/
theorem safe_bumpAndRemove {b : Bytes} {e : Etag} (hI : key.slots.Inv B lifetimes h) (hn : key.slots.NoBump t h)
    (hsaw : key.slots.SawOnly t e h) (hw : key.slots.Witnessed h.store) (htag : B.tags b e)
    (hb : B.Sound → lifetimes.stamp b ≤ key.slots.count h.store) :
    Safe Sys (key.slots.Inv B lifetimes) t (bumpIncarnation K key.name >>= fun _ => do
      match ← deleteConditional key.slots.control e with
      | .ok () | .error .notFound => pure ()
      | .error .preconditionFailed => do throw (← casConflict O K key.name e)
      | .error .failed => unavailable "keyspace destroy: conditional delete" : KeyOp Unit).run
      (fun _ h' => key.slots.Calm B → key.slots.Closed t h') h := by
  refine safe_bump hx hI hw hn hsaw (fun h₁ _ hle hI₁ hlt hsaw₁ => ?_) fun h₁ _ hn₁ => safe_quit rfl hn₁
  refine safe_remove hx (hI₁.witnessed_store hle hw) htag (fun hB => (hb hB).trans_lt (hlt hB)) hsaw₁
    fun h₂ x _ hI₂ hc _ => ?_
  have hret : ∀ h₃ (r : Except KeyspaceError Unit), (key.slots.Calm B → key.slots.Closed t h₃) →
      Safe Sys (key.slots.Inv B lifetimes) t (.ret r) (fun _ h' => key.slots.Calm B → key.slots.Closed t h') h₃ :=
    fun h₃ r hc => Safe.ret fun _ hr => Closed.steady.imp.wait _ _ hr hc
  match x with
  | .ok () => exact hret h₂ _ hc
  | .error .notFound => exact hret h₂ _ hc
  | .error .failed => exact hret h₂ _ hc
  | .error .preconditionFailed =>
    exact safe_step hx hI₂ (every_casConflict O key.allowsReads ..) Closed.steady.imp hc
      (fun h₃ _ _ _ _ hc₃ => hret h₃ _ hc₃) fun h₃ _ _ _ hc₃ => hret h₃ _ hc₃

/-- A destroy that moved the counter saw the control before, and saw to it that it was gone after. -/
theorem safe_destroy (cause actor : Str) (ts : UInt64) (hfresh : ∀ i r x, ¬ h.Asked i t r x) :
    Safe Sys (key.slots.Inv B lifetimes) t (destroy O K key.name cause actor ts).run
      (fun _ h' => key.slots.Calm B → key.slots.Closed t h') h := by
  have hn : key.slots.NoBump t h := fun β d c y => hfresh β _ _
  have hpath : K.objectKey key.name = .ok key.slots.control := key.path
  simp only [destroy, prepareDestroy, readControlEraWithEtag, hpath, check, bind_assoc, pure_bind]
  refine safe_download hx fun h₁ hr x hex hI => ?_
  have hn₁ : key.slots.NoBump t (h₁.push (.ask t (.get key.slots.control) x) h₁.store) := (hn.wait hr).push (by simp)
  rcases x with (_ | _ | _) | ⟨data, _ | e⟩
  · exact safe_quit rfl hn₁
  · exact safe_quit rfl hn₁
  · exact safe_quit rfl hn₁
  · exact safe_quit rfl hn₁
  · obtain ⟨o, ho, rfl, he⟩ := Backend.get_ok hex
    have htag : B.tags o.data e := he e rfl ▸ hr.inv.state.tagged _ _ ho
    have hsane : B.Sound → lifetimes.stamp o.data ≤ key.slots.count h₁.store := fun hB =>
      hr.inv.state.sane hB o.data (by rw [cell, object, ho, Option.map_some])
    have hsaw : key.slots.SawOnly t e (h₁.push (.ask t (.get key.slots.control) (.ok (o.data, some e))) h₁.store) := by
      intro i b e' ha
      rcases Hist.asked_push.1 ha with ha | ⟨-, ha⟩
      · exact absurd (hr.asked ha) (hfresh i _ _)
      · simp only [Label.ask.injEq, heq_eq_eq, true_and, Except.ok.injEq, Prod.mk.injEq, Option.some.injEq] at ha
        exact ha.2.symm
    dsimp only
    cases hc : ControlEnvelope.decode O key.name o.data with
    | error err => exact safe_quit rfl hn₁
    | ok control =>
      simp only [pure_bind, bind_assoc]
      refine safe_witness hx hn₁ hsaw fun h₂ x hle hI₂ hn₂ hsaw₂ hw => ?_
      have hsane₂ : B.Sound → lifetimes.stamp o.data ≤ key.slots.count h₂.store := fun hB =>
        (hsane hB).trans (hI₂.count_store_le (Hist.le_push.trans hle) hB)
      rcases x with (_ | _ | _) | y
      · exact safe_quit rfl hn₂
      · simp only [pure_bind, bind_assoc]
        exact safe_bumpAndRemove O hx hI₂ hn₂ hsaw₂ (hw (.inr rfl)) htag hsane₂
      · exact safe_quit rfl hn₂
      · simp only [pure_bind, bind_assoc]
        exact safe_bumpAndRemove O hx hI₂ hn₂ hsaw₂ (hw (.inl ⟨y, rfl⟩)) htag hsane₂

/-! ### Existence reads -/

/-- A read of the control that finds nothing. -/
def Nothing (key : Key K) {β : Type} (i₀ : ℕ) (r : Except KeyspaceError (Option β)) (h : History Call Res) : Prop :=
  r = .ok none → ∃ i, i₀ ≤ i ∧ i ≤ h.now ∧ key.slots.object (h.storeAt i) = none

theorem safe_controlRead {β : Type} {f : Except StoreError (Bytes × Option Etag) → KeyOp (Option β)}
    (hsome : ∀ d e, (f (.ok (d, e))).run.Every key.slots.Spares fun r => r ≠ .ok none)
    (herr : ∀ e, e ≠ .notFound → (f (.error e)).run.Every key.slots.Spares fun r => r ≠ .ok none)
    (hnone : (f (.error .notFound)).run = .ret (.ok none)) :
    Safe Sys (key.slots.Inv B lifetimes) t (download key.slots.control >>= f).run
      (key.Nothing h.now) h := by
  refine safe_download hx fun h₁ hr x hex hI => ?_
  have hspares : (f x).run.Every key.slots.Spares (fun r => r ≠ .ok none) → Safe Sys (key.slots.Inv B lifetimes) t (f x).run
      (key.Nothing h.now) (h₁.push (.ask t (.get key.slots.control) x) h₁.store) := fun he =>
    (safe_spares (X := fun _ => True) hx he (.of_mono fun _ _ _ => id) trivial).imp fun _ _ _ _ hq hr => absurd hr hq.1
  match x, hex, hspares with
  | .ok (d, e), _, hspares => exact hspares (hsome d e)
  | .error .preconditionFailed, _, hspares => exact hspares (herr _ (by simp))
  | .error .failed, _, hspares => exact hspares (herr _ (by simp))
  | .error .notFound, hex, _ =>
    rw [hnone]
    refine Safe.ret fun h₂ hr₂ _ => ⟨h₁.now, Hist.now_le hr.le, ?_, ?_⟩
    · exact (Nat.le_succ _).trans ((Hist.push_now (h := h₁)).symm.le.trans (Hist.now_le hr₂.le))
    · rw [← Hist.store_eq_storeAt (Hist.le_push.trans hr₂.le)]
      exact Backend.get_notFound hex

theorem safe_getWithEtag : Safe Sys (key.slots.Inv B lifetimes) t (getWithEtag O K key.name).run
    (key.Nothing h.now) h := by
  have hpath : K.objectKey key.name = .ok key.slots.control := key.path
  simp only [getWithEtag, hpath, check, pure_bind]
  refine safe_controlRead hx (fun d e => ?_) (fun e he => ?_) rfl
  · cases e with
    | none => rintro ⟨⟩
    | some e =>
      refine Prog.every_bindE.2 ((every_collectValue O key.allowsReads ..).imp ?_)
      rintro (err | value) - <;> rintro ⟨⟩
  · cases e
    · exact absurd rfl he
    · rintro ⟨⟩
    · rintro ⟨⟩

theorem safe_openStream : Safe Sys (key.slots.Inv B lifetimes) t (openStream O K key.name).run
    (key.Nothing h.now) h := by
  have hpath : K.objectKey key.name = .ok key.slots.control := key.path
  simp only [openStream, hpath, check, pure_bind]
  refine safe_controlRead hx (fun d e => ?_) (fun e he => ?_) rfl
  · cases e with
    | none => rintro ⟨⟩
    | some e =>
      refine Prog.every_bindE.2 (every_check.imp ?_)
      rintro (err | value) - <;> rintro ⟨⟩
  · cases e
    · exact absurd rfl he
    · rintro ⟨⟩
    · rintro ⟨⟩

/-- A read of the tombstone that finds nothing. -/
theorem safe_readTombstone (operation : String) :
    Safe Sys (key.slots.Inv B lifetimes) t (readTombstone O K key.name operation).run
      (fun r h' => r = .ok none → ∃ j, h.now ≤ j ∧ j ≤ h'.now ∧ ¬ key.slots.Witnessed (h'.storeAt j)) h := by
  refine safe_download hx fun h₁ hr x hex _ => ?_
  match x, hex with
  | .ok (bytes, _), _ =>
    refine (safe_spares (X := fun _ => True) hx (Q := fun r => r ≠ .ok none) ?_ (.of_mono fun _ _ _ => id) trivial).imp
      fun _ _ _ _ hq hr => absurd hr hq.1
    dsimp only
    rw [map_eq_pure_bind]
    refine Prog.every_bindE.2 (every_check.imp ?_)
    rintro (err | tombstone) - <;> exact nofun
  | .error .preconditionFailed, _ => exact Safe.ret fun _ _ => nofun
  | .error .failed, _ => exact Safe.ret fun _ _ => nofun
  | .error .notFound, hex =>
    refine Safe.ret fun h₂ hr₂ _ => ⟨h₁.now, Hist.now_le hr.le, ?_, ?_⟩
    · exact (Nat.le_succ _).trans ((Hist.push_now (h := h₁)).symm.le.trans (Hist.now_le hr₂.le))
    · rw [← Hist.store_eq_storeAt (Hist.le_push.trans hr₂.le)]
      exact fun hw => hw (Backend.get_notFound hex)

/-- An existence read: the floor, the control, the tombstone. -/
theorem safe_existence {β γ : Type} {fuel : ℕ} {operation : String} {p : KeyOp (Option β)} {f : Option β → KeyOp γ}
    {g : Option Tombstone → KeyOp γ} {e : UInt64 → KeyOp γ} {absent : γ} (hI : key.slots.Inv B lifetimes h) (ht : t < h.now)
    (hp : ∀ h : History Call Res, Safe Sys (key.slots.Inv B lifetimes) t p.run (key.Nothing h.now) h)
    (hfn : f none = readTombstone O K key.name operation >>= g)
    (hf : ∀ x, ∃ r, (f (some x)).run = .ret r ∧ r ≠ .ok absent) (hg : ∀ x, ∃ r, (g (some x)).run = .ret r ∧ r ≠ .ok absent)
    (hgn : (g none).run = .ret (.ok absent)) (he : ∀ n, ∃ r, (e n).run = .ret r ∧ r ≠ .ok absent) :
    Safe Sys (key.slots.Inv B lifetimes) t (seqRetired K fuel key.name >>= fun r =>
      match r with
      | some floor => e floor
      | none => p >>= f).run (fun r h' => r = .ok absent → key.slots.Missed h' t) h := by
  have hret : ∀ (q : KeyOp γ) h₁, (∃ r, q.run = .ret r ∧ r ≠ .ok absent) → Safe Sys (key.slots.Inv B lifetimes) t q.run
      (fun r h' => r = .ok absent → key.slots.Missed h' t) h₁ := by
    rintro q h₁ ⟨r, hq, hr⟩
    rw [hq]
    exact Safe.ret fun _ _ he => absurd he hr
  refine safe_step (X := fun _ => True) hx hI (every_seqRetired key.allowsReads ..) (.of_mono fun _ _ _ => id) trivial
    (fun h₁ r _ hle hI₁ _ => ?_) fun h₁ err _ _ _ => hret _ h₁ ⟨_, rfl, nofun⟩
  match r with
  | some floor => exact hret _ h₁ (he floor)
  | none =>
    refine Safe.bindE hI₁ ((hp h₁).imp ?_)
    rintro (err | _ | x) h₂ _ hI₂ hn
    · exact (hret (throw err) h₂ ⟨_, rfl, nofun⟩ : Safe Sys _ t _ _ h₂)
    · obtain ⟨i, hi, hi', ho⟩ := hn rfl
      change Safe Sys _ t (f none).run _ h₂
      rw [hfn]
      refine Safe.bindE hI₂ ((safe_readTombstone O hx operation).imp ?_)
      rintro (err | _ | x) h₃ hle₃ _ hn₃
      · exact (hret (throw err) h₃ ⟨_, rfl, nofun⟩ : Safe Sys _ t _ _ h₃)
      · obtain ⟨j, hj, hj', hw⟩ := hn₃ rfl
        change Safe Sys _ t (g none).run _ h₃
        rw [hgn]
        refine Safe.ret fun h₄ hr₄ _ => ⟨i, j, ?_, hi'.trans hj, hj'.trans (Hist.now_le hr₄.le), ?_, ?_⟩
        · exact ht.trans_le ((Hist.now_le hle).trans hi)
        · rwa [Hist.storeAt_mono (hle₃.trans hr₄.le) hi']
        · rwa [Hist.storeAt_mono hr₄.le hj']
      · exact (hret (g (some x)) h₃ (hg x) : Safe Sys _ t _ _ h₃)
    · exact (hret (f (some x)) h₂ (hf x) : Safe Sys _ t _ _ h₂)

theorem safe_readState (fuel : ℕ) (hI : key.slots.Inv B lifetimes h) (ht : t < h.now) :
    Safe Sys (key.slots.Inv B lifetimes) t (readState O K fuel key.name).run
      (fun r h' => r = .ok .absent → key.slots.Missed h' t) h := by
  simp only [readState, key.path, check, pure_bind]
  refine safe_existence O hx hI ht (fun _ => safe_getWithEtag O hx) rfl ?_ ?_ rfl ?_
  · exact fun x => ⟨_, rfl, by rintro ⟨⟩⟩
  · exact fun x => ⟨_, rfl, by rintro ⟨⟩⟩
  · exact fun n => ⟨_, rfl, by rintro ⟨⟩⟩

theorem safe_readStateStream (fuel : ℕ) (hI : key.slots.Inv B lifetimes h) (ht : t < h.now) :
    Safe Sys (key.slots.Inv B lifetimes) t (readStateStream O K fuel key.name).run
      (fun r h' => r = .ok .absent → key.slots.Missed h' t) h := by
  simp only [readStateStream, key.path, check, pure_bind]
  refine safe_existence O hx hI ht (fun _ => safe_openStream O hx) rfl ?_ ?_ rfl ?_
  · exact fun x => ⟨_, rfl, by rintro ⟨⟩⟩
  · exact fun x => ⟨_, rfl, by rintro ⟨⟩⟩
  · exact fun n => ⟨_, rfl, by rintro ⟨⟩⟩

end

end YeetzS3.Keyspace.Key
