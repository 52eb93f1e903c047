import YeetzS3.Region
import YeetzS3.Lineage.Laws

/-!
# What a destroy removes

The head of a lineage is written and read at `Path::from` of its key and deleted at the key as it is. A destroy that
runs alone and fails nowhere removes the head exactly when the two are one (`destroy_removes_iff`).
-/

namespace YeetzS3.Lineage

open Conc

variable (X : Crates) (l : KernelLineage) {etag : Bytes → Etag} {s t : Store} {o : Object} {head : CanonicalHead}
  {cause actor : Str} {ts : UInt64}

/-! ### The parts of a destroy -/

theorem eval_loadHead (ho : s.lookup (pathFrom l.headKey) = some o) (hh : CanonicalHead.fromBytes X l o.data = .ok head) :
    (loadHead X l).run.eval (Store.serve etag) s = (some (.ok (head, some o.etag)), s) := by
  rw [loadHead, eval_ask_bind, Store.serve, found_some ho]
  dsimp only
  rw [hh]
  rfl

theorem eval_loadHead_none (h : s.lookup (pathFrom l.headKey) = none) :
    (loadHead X l).run.eval (Store.serve etag) s = (some (.error (.stateHistoryIncomplete (.forLineage l))), s) := by
  rw [loadHead, eval_ask_bind, Store.serve, found_none h]
  rfl

/-- The counter of the lineage, if there is one, can be read and advanced. -/
def CounterOpen (s : Store) : Prop := ∀ o, s.lookup (pathFrom l.incarnationKey) = some o →
  ∃ n next, u64OfBytes o.data = some n ∧ checkedSucc n = some next

/-- The tombstone of the lineage, if there is one, can be read. -/
def TombstoneReads (s : Store) : Prop := ∀ o, s.lookup (pathFrom l.tombstoneKey) = some o →
  ∃ tombstone, Tombstone.decode X.toOutside o.data = .ok tombstone

variable {l} in
theorem eval_bump (h : CounterOpen l s) (tries : ℕ) : ∃ next, (bumpCounter counterErrors l.incarnationKey (tries + 1)).run.eval
    (Store.serve etag) s = (some (.ok next), s.insert (pathFrom l.incarnationKey) ⟨u64Bytes next, etag (u64Bytes next)⟩) := by
  rw [bumpCounter, eval_ask_bind]
  cases hl : s.lookup (pathFrom l.incarnationKey) with
  | none =>
    refine ⟨1, ?_⟩
    rw [Store.serve, found_none hl]
    dsimp only
    rw [eval_ask_bind, Store.serve, if_pos (Store.accepts_none.2 hl)]
    rfl
  | some o =>
    obtain ⟨n, next, hn, hnext⟩ := h o hl
    refine ⟨next, ?_⟩
    rw [Store.serve, found_some hl]
    dsimp only
    rw [hn]
    dsimp only
    rw [hnext]
    dsimp only
    rw [eval_ask_bind, Store.serve, if_pos (Store.accepts_some.2 ⟨o, hl, rfl⟩)]
    rfl

variable {l} in
theorem eval_bump_error (h : ¬ CounterOpen l s) (tries : ℕ) : ∃ e,
    (bumpCounter counterErrors l.incarnationKey (tries + 1)).run.eval (Store.serve etag) s = (some (.error e), s) := by
  unfold CounterOpen at h
  push Not at h
  obtain ⟨o, hl, hbad⟩ := h
  rw [bumpCounter, eval_ask_bind, Store.serve, found_some hl]
  dsimp only
  cases hn : u64OfBytes o.data with
  | none => exact ⟨_, rfl⟩
  | some n =>
    dsimp only
    cases hnext : checkedSucc n with
    | none => exact ⟨_, rfl⟩
    | some next => exact absurd hnext (hbad n next hn)

/-- What a destroy does once its head is deleted, or is not. -/
def destroyEnds (etag : Etag) : KernelOp Unit := do
  match ← deleteConditional l.headKey etag with
  | .ok () | .error .notFound => pure ()
  | .error .preconditionFailed => throwConflict X l
  | .error .failed => unavailable "head deletion"

/-- What the tombstone's put leaves: the first tombstone stays. -/
def Tombstoned (s s' : Store) (json : Bytes) : Prop :=
  (∀ p, p ≠ pathFrom l.tombstoneKey → s'.lookup p = s.lookup p) ∧
    (s.lookup (pathFrom l.tombstoneKey) = none → ∃ e, s'.lookup (pathFrom l.tombstoneKey) = some ⟨json, e⟩) ∧
    (s.lookup (pathFrom l.tombstoneKey) ≠ none → s'.lookup (pathFrom l.tombstoneKey) = s.lookup (pathFrom l.tombstoneKey))

/-- The put of a tombstone answers with its tag, or that one is there. -/
theorem serve_tombstone (s : Store) (json : Bytes) : ∃ s₁, Tombstoned l s s₁ json ∧
    (s.serve etag (.put l.tombstoneKey json none) = (.ok (some (etag json)), s₁) ∨
      s.serve etag (.put l.tombstoneKey json none) = (.error .preconditionFailed, s₁)) := by
  by_cases h : s.lookup (pathFrom l.tombstoneKey) = none
  · refine ⟨s.insert (pathFrom l.tombstoneKey) ⟨json, etag json⟩, ⟨fun p hp => ?_, fun _ => ⟨etag json, ?_⟩, fun hn => absurd h hn⟩, .inl ?_⟩
    · rw [AList.lookup_insert_ne hp]
    · exact AList.lookup_insert _
    · rw [Store.serve, if_pos (Store.accepts_none.2 h)]
  · refine ⟨s, ⟨fun _ _ => rfl, fun hn => absurd hn h, fun _ => rfl⟩, .inr ?_⟩
    rw [Store.serve, if_neg fun ha => h (Store.accepts_none.1 ha)]

/-- A destroy of a visible head comes to its delete, unless the counter cannot be advanced. -/
theorem eval_destroy (ho : s.lookup (pathFrom l.headKey) = some o) (hh : CanonicalHead.fromBytes X l o.data = .ok head) :
    ∃ s₁, Tombstoned l s s₁ (X.tombstoneJson (.mint head.incarnation head.generation cause actor ts)) ∧
      (CounterOpen l s → ∃ next, (destroy X l cause actor ts).run.eval (Store.serve etag) s =
        (destroyEnds X l o.etag).run.eval (Store.serve etag)
          (s₁.insert (pathFrom l.incarnationKey) ⟨u64Bytes next, etag (u64Bytes next)⟩)) ∧
      (¬ CounterOpen l s → ∃ e, (destroy X l cause actor ts).run.eval (Store.serve etag) s = (some (.error e), s₁)) := by
  obtain ⟨s₁, hs₁, hput⟩ := @serve_tombstone l etag s
    (X.tombstoneJson (.mint head.incarnation head.generation cause actor ts))
  have hcounter : CounterOpen l s₁ ↔ CounterOpen l s := by
    have hsame : s₁.lookup (pathFrom l.incarnationKey) = s.lookup (pathFrom l.incarnationKey) :=
      hs₁.1 _ l.slots.counter_ne_tombstone
    rw [CounterOpen, CounterOpen, hsame]
  have hprog : (destroy X l cause actor ts).run.eval (Store.serve etag) s =
      (bumpCounter counterErrors l.incarnationKey 8 >>= fun _ => destroyEnds X l o.etag).run.eval (Store.serve etag) s₁ := by
    rw [destroy, eval_attempt_bind (eval_loadHead X l ho hh)]
    dsimp only [needEtag]
    rw [pure_bind, eval_ask_bind]
    rcases hput with hput | hput
    · rw [hput]
      rfl
    · rw [hput]
      rfl
  refine ⟨s₁, hs₁, fun hc => ?_, fun hc => ?_⟩
  · obtain ⟨next, hbump⟩ := @eval_bump _ etag _ (hcounter.2 hc) 7
    exact ⟨next, hprog.trans (eval_bindE hbump)⟩
  · obtain ⟨e, hbump⟩ := @eval_bump_error _ etag _ (fun h => hc (hcounter.1 h)) 7
    exact ⟨e, hprog.trans (eval_bindE_error hbump)⟩

/-! ### When the head is gone -/

/-- A destroy, alone on a backend that fails nothing, returns without an error and leaves the lineage destroyed. -/
def Destroys (etag : Bytes → Etag) (s : Store) (cause actor : Str) (ts : UInt64) : Prop :=
  ∃ t tombstone, (destroy X l cause actor ts).run.eval (Store.serve etag) s = (some (.ok ()), t) ∧
    t.lookup (pathFrom l.headKey) = none ∧
    (readHeadState X l).run.eval (Store.serve etag) t = (some (.ok (.destroyed tombstone)), t)

/-- What a read of a lineage without a head finds is in its tombstone. -/
theorem eval_readHeadState (h : t.lookup (pathFrom l.headKey) = none) {w : Object}
    (hw : t.lookup (pathFrom l.tombstoneKey) = some w) {tombstone : Tombstone} :
    (readHeadState X l).run.eval (Store.serve etag) t = (some (.ok (.destroyed tombstone)), t) ↔
      Tombstone.decode X.toOutside w.data = .ok tombstone := by
  rw [readHeadState, eval_attempt_bind (eval_loadHead_none X l h)]
  dsimp only
  cases hd : Tombstone.decode X.toOutside w.data with
  | error e =>
    have hread : (loadTombstone X l).run.eval (Store.serve etag) t = (some (.error (.tombstoneCorrupt (.forLineage l))), t) := by
      rw [loadTombstone, eval_ask_bind, Store.serve, found_some hw]
      dsimp only
      rw [hd]
      rfl
    rw [eval_bindE_error hread]
    exact ⟨(fun he => by cases he), fun he => by cases he⟩
  | ok tombstone' =>
    have hread : (loadTombstone X l).run.eval (Store.serve etag) t = (some (.ok (some tombstone')), t) := by
      rw [loadTombstone, eval_ask_bind, Store.serve, found_some hw]
      dsimp only
      rw [hd]
      rfl
    rw [eval_bindE hread]
    constructor
    · intro he
      cases he
      rfl
    · intro he
      cases he
      rfl

/-- The delete of the head's key as it is leaves every other path. -/
theorem destroyEnds_spares {p : Str} (hne : p ≠ l.headKey) {e : Etag} {r : Option (Except KernelError Unit)}
    (h : (destroyEnds X l e).run.eval (Store.serve etag) s = (r, t)) : t.lookup p = s.lookup p := by
  have hstate : t = (s.serve etag (.deleteIf l.headKey e)).2 := by
    rw [destroyEnds, eval_ask_bind] at h
    have hlooks : ∀ x : Except StoreError Unit, ((match x with
        | .ok () | .error .notFound => pure ()
        | .error .preconditionFailed => throwConflict X l
        | .error .failed => unavailable "head deletion" : KernelOp Unit)).run.Every Req.Looks fun _ => True := by
      rintro ((_ | _ | _) | u)
      any_goals trivial
      exact every_throwConflict X (fun _ => trivial) fun _ => trivial
    exact (congrArg Prod.snd h).symm.trans (eval_looks (hlooks _))
  rw [hstate, Store.serve]
  split
  · rw [AList.lookup_erase_ne hne]
  · rfl

/-- A destroy leaves a head whose key is another on the wire. -/
theorem head_stays (hne : pathFrom l.headKey ≠ l.headKey) (ho : s.lookup (pathFrom l.headKey) = some o)
    (hh : CanonicalHead.fromBytes X l o.data = .ok head) {r : Option (Except KernelError Unit)}
    (h : (destroy X l cause actor ts).run.eval (Store.serve etag) s = (r, t)) : t.lookup (pathFrom l.headKey) = some o := by
  obtain ⟨s₁, ⟨hsame, -, -⟩, hopen, hclosed⟩ :=
    @eval_destroy X l etag _ _ _ cause actor ts ho hh
  have hhc : pathFrom l.headKey ≠ pathFrom l.incarnationKey := l.slots.control_ne_counter
  have ho₁ : s₁.lookup (pathFrom l.headKey) = some o := (hsame _ l.slots.control_ne_tombstone).trans ho
  by_cases hc : CounterOpen l s
  · obtain ⟨next, hends⟩ := hopen hc
    rw [destroyEnds_spares X l hne (hends.symm.trans h), AList.lookup_insert_ne hhc, ho₁]
  · obtain ⟨e, he⟩ := hclosed hc
    have ht : s₁ = t := congrArg Prod.snd (he.symm.trans h)
    rw [← ht, ho₁]

/-- A destroy leaves the lineage destroyed if and only if the head's key is on the wire what it is, and the counter and
the tombstone that are there can be read. -/
theorem destroy_removes_iff (hjson : ∀ tombstone, X.tombstoneOfJson (X.tombstoneJson tombstone) = some tombstone)
    (ho : s.lookup (pathFrom l.headKey) = some o) (hh : CanonicalHead.fromBytes X l o.data = .ok head) :
    Destroys X l etag s cause actor ts ↔ pathFrom l.headKey = l.headKey ∧ CounterOpen l s ∧ TombstoneReads X l s := by
  obtain ⟨s₁, ⟨hsame, hnew, hold⟩, hopen, hclosed⟩ :=
    @eval_destroy X l etag _ _ _ cause actor ts ho hh
  have hhc : pathFrom l.headKey ≠ pathFrom l.incarnationKey := l.slots.control_ne_counter
  have htc : pathFrom l.tombstoneKey ≠ pathFrom l.incarnationKey := l.slots.counter_ne_tombstone.symm
  have hth : pathFrom l.tombstoneKey ≠ l.headKey := l.slots.verbatim_ne_tombstone.symm
  have hhead : ∀ c : Object, (s₁.insert (pathFrom l.incarnationKey) c).lookup (pathFrom l.headKey) = some o := fun c => by
    rw [AList.lookup_insert_ne hhc, ← ho]
    exact hsame _ l.slots.control_ne_tombstone
  have htomb : ∀ c : Object, (s₁.insert (pathFrom l.incarnationKey) c).lookup (pathFrom l.tombstoneKey) =
      s₁.lookup (pathFrom l.tombstoneKey) := fun c => AList.lookup_insert_ne htc
  constructor
  · rintro ⟨t, tombstone, hd, hgone, hread⟩
    have hc : CounterOpen l s := by
      by_contra hc
      obtain ⟨e, he⟩ := hclosed hc
      rw [hd] at he
      cases he
    obtain ⟨next, hends⟩ := hopen hc
    rw [hd] at hends
    have hkey : pathFrom l.headKey = l.headKey := by
      by_contra hne
      rw [head_stays X l hne ho hh hd] at hgone
      cases hgone
    refine ⟨hkey, hc, fun w hw => ⟨tombstone, ?_⟩⟩
    have hwt : t.lookup (pathFrom l.tombstoneKey) = some w := by
      rw [destroyEnds_spares X l hth hends.symm, htomb,
        hold (by rw [hw]; exact Option.some_ne_none _), hw]
    exact (eval_readHeadState X l hgone hwt).1 hread
  · rintro ⟨hkey, hc, hreads⟩
    obtain ⟨next, hends⟩ := hopen hc
    obtain ⟨w, tombstone, hw, hdecode⟩ : ∃ w tombstone, s₁.lookup (pathFrom l.tombstoneKey) = some w ∧
        Tombstone.decode X.toOutside w.data = .ok tombstone := by
      cases hs : s.lookup (pathFrom l.tombstoneKey) with
      | none =>
        obtain ⟨e, he⟩ := hnew hs
        refine ⟨_, .mint head.incarnation head.generation cause actor ts, he, ?_⟩
        rw [Tombstone.decode, hjson]
        rfl
      | some w =>
        obtain ⟨tombstone, ht⟩ := hreads w hs
        exact ⟨w, tombstone, (hold (by rw [hs]; exact Option.some_ne_none _)).trans hs, ht⟩
    have hdelete : (destroyEnds X l o.etag).run.eval (Store.serve etag)
        (s₁.insert (pathFrom l.incarnationKey) ⟨u64Bytes next, etag (u64Bytes next)⟩) = (some (.ok ()),
          (s₁.insert (pathFrom l.incarnationKey) ⟨u64Bytes next, etag (u64Bytes next)⟩).erase l.headKey) := by
      have ho' := hhead ⟨u64Bytes next, etag (u64Bytes next)⟩
      rw [hkey] at ho'
      rw [destroyEnds, eval_ask_bind, Store.serve, if_pos (Store.accepts_some.2 ⟨o, ho', rfl⟩)]
      rfl
    have hgone : ((s₁.insert (pathFrom l.incarnationKey) ⟨u64Bytes next, etag (u64Bytes next)⟩).erase l.headKey).lookup
        (pathFrom l.headKey) = none := by
      rw [hkey, AList.lookup_erase]
    have hwt : ((s₁.insert (pathFrom l.incarnationKey) ⟨u64Bytes next, etag (u64Bytes next)⟩).erase l.headKey).lookup
        (pathFrom l.tombstoneKey) = some w := by
      rw [AList.lookup_erase_ne hth, htomb, hw]
    exact ⟨_, tombstone, hends.trans hdelete, hgone, (eval_readHeadState X l hgone hwt).2 hdecode⟩

/-- A bucket with one head in it. -/
def headStore (head : CanonicalHead) : Store :=
  AList.insert (pathFrom head.lineage.headKey)
    ⟨head.canonicalBytes Serde.crates, contentTag (head.canonicalBytes Serde.crates)⟩ ∅

theorem destroy_removes_iff_letter : Destroys Serde.crates letterLineage contentTag (headStore letterHead.head) [] [] 0 := by
  have hnone : ∀ {p}, p ≠ pathFrom letterLineage.headKey → (headStore letterHead.head).lookup p = none := fun hp =>
    AList.lookup_insert_ne hp
  have ho : (headStore letterHead.head).lookup (pathFrom letterLineage.headKey) =
      some ⟨letterHead.head.canonicalBytes Serde.crates, contentTag (letterHead.head.canonicalBytes Serde.crates)⟩ :=
    AList.lookup_insert _
  have hh : CanonicalHead.fromBytes Serde.crates letterLineage (letterHead.head.canonicalBytes Serde.crates) =
      .ok letterHead.head := CanonicalHead.fromBytes_canonicalBytes (h := letterHead.head) (by decide)
  refine (destroy_removes_iff Serde.crates letterLineage Serde.tombstone.fromSlice_toVec ho hh).2 ⟨by decide, fun o ho => ?_, fun o ho => ?_⟩
  · exact absurd (ho.symm.trans (hnone (by decide))) (Option.some_ne_none o)
  · exact absurd (ho.symm.trans (hnone (by decide))) (Option.some_ne_none o)

/-- A lineage whose name has a character that is escaped. -/
def hashLineage : KernelLineage := ⟨"a#".toList, .successorCapable, by decide⟩

/-- A head of it. -/
def hashHead : CanonicalHead := ⟨hashLineage, 0, 0, letterGenesis.digest Serde.crates, none⟩

/-- Its head is still there after a destroy that returned without an error. -/
theorem destroy_misses_hash :
    ((destroy Serde.crates hashLineage [] [] 0).run.eval (Store.serve contentTag) (headStore hashHead)).1 = some (.ok ()) ∧
    ¬ Destroys Serde.crates hashLineage contentTag (headStore hashHead) [] [] 0 := by
  refine ⟨by decide +kernel, ?_⟩
  rintro ⟨t, tombstone, hd, hgone, -⟩
  have ho : (headStore hashHead).lookup (pathFrom hashLineage.headKey) =
      some ⟨hashHead.canonicalBytes Serde.crates, contentTag (hashHead.canonicalBytes Serde.crates)⟩ := AList.lookup_insert _
  have hh : CanonicalHead.fromBytes Serde.crates hashLineage (hashHead.canonicalBytes Serde.crates) = .ok hashHead :=
    CanonicalHead.fromBytes_canonicalBytes (h := hashHead) (by decide)
  have hstays := head_stays Serde.crates hashLineage (by decide) ho hh hd
  exact Option.some_ne_none _ (hstays.symm.trans hgone)

end YeetzS3.Lineage
