import YeetzS3.Lineage.Codec
import YeetzS3.Lineage.Ops
import YeetzS3.Lineage.Serde

/-!
# Backward walks and projections

A walk goes from the head's record back to the genesis, each record naming the digest of the one before it.
`load_history` walks over the store, `records_for_source` over the copies a `FoldProjection` carries. `Walked` is
what both leave: it depends on the digest the walk began with and not on where the records came from. The
projections' format is canonical like the others.
-/

namespace YeetzS3.Lineage

open Conc

/-! ### Projections -/

/-- `KernelLineage::new`. -/
def KernelLineage.new (value : Str) (policy : SuccessorPolicy) : Except KernelError KernelLineage :=
  if h : isValidLineage value = true then .ok ⟨value, policy, h⟩ else .error (.stateRecordMalformed .invalid)

/-- `ProjectionSource`. -/
structure ProjectionSource where
  lineage : Str
  generation : UInt64
  digest : RecordDigest
deriving DecidableEq

/-- `ProjectionSource::from_head`. -/
def ProjectionSource.fromHead (h : CanonicalHead) : ProjectionSource := ⟨h.lineage.value, h.generation, h.recordDigest⟩

/-- `ProjectionSource::matches`. -/
def ProjectionSource.matches (s : ProjectionSource) (h : CanonicalHead) : Bool :=
  s.lineage = h.lineage.value && s.generation = h.generation && s.digest = h.recordDigest

/-- `ProjectedRecord`. -/
structure ProjectedRecord where
  digest : RecordDigest
  bytes : Bytes
deriving DecidableEq

/-- `FoldProjection`. Nothing is known of what it copies until `records_for_source` has walked it. -/
structure FoldProjection where
  source : ProjectionSource
  records : List ProjectedRecord
deriving DecidableEq

namespace ProjectedRecord

/-- A record as `ProjectedRecordWire` carries it. -/
def wire (r : ProjectedRecord) : ProjectedRecordWire := ⟨hexEncode r.bytes, r.digest.hex⟩

/-- A record as `from_canonical_bytes` reads it; `err` names the projection's source. -/
def ofWire (l : KernelLineage) (err : KernelError) (w : ProjectedRecordWire) : Except KernelError ProjectedRecord :=
  match RecordDigest.parse w.digest with
  | none => .error err
  | some digest =>
    match hexDecode w.bytesHex with
    | none => .error (.stateRecordMalformed (.forDigest l digest))
    | some bytes => .ok ⟨digest, bytes⟩

/-- The records of a wire structure, up to the first that does not read. -/
def ofWires (l : KernelLineage) (err : KernelError) : List ProjectedRecordWire → Except KernelError (List ProjectedRecord)
  | [] => .ok []
  | w :: ws =>
    match ofWire l err w with
    | .error e => .error e
    | .ok r =>
      match ofWires l err ws with
      | .error e => .error e
      | .ok rs => .ok (r :: rs)

end ProjectedRecord

/-- The copy of a record. -/
def CanonicalRecord.projected (X : Crates) (r : CanonicalRecord) : ProjectedRecord := ⟨r.digest X, r.canonicalBytes X⟩

/-- The first digest that was inserted before. -/
def firstDuplicate : List RecordDigest → List RecordDigest → Option RecordDigest
  | _, [] => none
  | seen, d :: ds => if d ∈ seen then some d else firstDuplicate (d :: seen) ds

namespace FoldProjection

variable (X : Crates)

/-- `from_authoritative`. -/
def fromAuthoritative (h : CanonicalHead) (records : List CanonicalRecord) : FoldProjection :=
  ⟨.fromHead h, records.map (CanonicalRecord.projected X)⟩

/-- The copy of digest `d`, read as a record of the lineage. -/
def load (p : FoldProjection) (l : KernelLineage) (d : RecordDigest) : Except KernelError CanonicalRecord :=
  match p.records.find? (·.digest = d) with
  | none => .error (.stateHistoryIncomplete (.forDigest l d))
  | some projected => CanonicalRecord.fromBytes X l d projected.bytes

/-- The copies must be in the order of the walk, oldest first. -/
def checkOrder (l : KernelLineage) : ℕ → List CanonicalRecord → List ProjectedRecord → Except KernelError Unit
  | _, [], _ => .ok ()
  | _, _ :: _, [] => .ok ()
  | n, r :: rs, projected :: ps =>
    if r.sequence.toNat ≠ n ∨ r.digest X ≠ projected.digest then
      .error (.stateHistoryIncomplete (.forDigest l projected.digest))
    else checkOrder l (n + 1) rs ps

/-- `records_for_source`; a `usize` has 64 bits. -/
def recordsForSource (p : FoldProjection) (l : KernelLineage) : Except KernelError (List CanonicalRecord) :=
  let incomplete := KernelError.stateHistoryIncomplete (.forLineage l)
  if p.source.lineage ≠ l.value then .error incomplete
  else if 2 ^ 64 ≤ p.source.generation.toNat + 1 then .error incomplete
  else match firstDuplicate [] (p.records.map (·.digest)) with
    | some d => .error (.stateHistoryIncomplete (.forDigest l d))
    | none =>
      if p.records.length ≠ p.source.generation.toNat + 1 then .error incomplete
      else match walkHistory X l (p.load X l) p.source.generation.toNat none p.source.digest [] with
        | .error e => .error e
        | .ok walked =>
          if walked.length ≠ p.records.length then .error incomplete
          else match checkOrder X l 0 walked.reverse p.records with
            | .error e => .error e
            | .ok () => .ok walked.reverse

/-- The wire structure `canonical_bytes` serializes. -/
def wire (p : FoldProjection) : ProjectionWire where
  envelope := projectionEnvelope
  records := p.records.map ProjectedRecord.wire
  sourceDigest := p.source.digest.hex
  sourceGeneration := p.source.generation
  sourceLineage := p.source.lineage

/-- `canonical_bytes`. -/
def canonicalBytes (p : FoldProjection) : Except KernelError Bytes :=
  match KernelLineage.new p.source.lineage .successorCapable with
  | .error _ => .error (.stateRecordMalformed .invalid)
  | .ok lineage =>
    match p.recordsForSource X lineage with
    | .error e => .error e
    | .ok _ => .ok (X.projection.toVec p.wire)

/-- `from_canonical_bytes` once the source is read. -/
def ofSource (lineage : KernelLineage) (sourceDigest : RecordDigest) (wire : ProjectionWire) (bytes : Bytes) :
    Except KernelError FoldProjection :=
  let malformed := KernelError.stateRecordMalformed (.forDigest lineage sourceDigest)
  match ProjectedRecord.ofWires lineage malformed wire.records with
  | .error e => .error e
  | .ok records =>
    let projection : FoldProjection := ⟨⟨lineage.value, wire.sourceGeneration, sourceDigest⟩, records⟩
    match projection.canonicalBytes X with
    | .error e => .error e
    | .ok encoded =>
      if encoded ≠ bytes then .error malformed
      else match projection.recordsForSource X lineage with
        | .error e => .error e
        | .ok _ => .ok projection

/-- `from_canonical_bytes`. -/
def fromCanonicalBytes (bytes : Bytes) : Except KernelError FoldProjection :=
  match X.projection.fromSlice bytes with
  | none => .error (.stateRecordMalformed .invalid)
  | some wire =>
    if wire.envelope ≠ projectionEnvelope then .error (.stateRecordMalformed .invalid)
    else match KernelLineage.new wire.sourceLineage .successorCapable with
      | .error _ => .error (.stateRecordMalformed .invalid)
      | .ok lineage =>
        match RecordDigest.parse wire.sourceDigest with
        | none => .error (.stateRecordMalformed (.forLineage lineage))
        | some sourceDigest => ofSource X lineage sourceDigest wire bytes

end FoldProjection

/-! ### What a walk leaves -/

/-- The walk from digest `next` at generation `n`, which came by the digests `seen`, went over the records `ws`. -/
def Walked (X : Crates) (l : KernelLineage) : ℕ → RecordDigest → List RecordDigest → List CanonicalRecord → Prop
  | _, _, _, [] => False
  | n, next, seen, r :: ws => r.lineage = l ∧ next ∉ seen ∧ r.digest X = next ∧ r.sequence.toNat = n ∧
    match r.prior with
    | none => n = 0 ∧ ws = []
    | some prior => prior.generation.toNat + 1 = n ∧ Walked X l prior.generation.toNat prior.digest (next :: seen) ws

variable {X : Crates} {l : KernelLineage} {n : ℕ} {next : RecordDigest} {seen : List RecordDigest}
  {ws : List CanonicalRecord}

theorem Walked.length (h : Walked X l n next seen ws) : ws.length = n + 1 := by
  induction ws generalizing n next seen with
  | nil => exact absurd h id
  | cons r ws ih =>
    obtain ⟨-, -, -, -, hp⟩ := h
    rw [List.length_cons]
    cases hr : r.prior with
    | none =>
      rw [hr] at hp
      rw [hp.1, hp.2]
      rfl
    | some prior =>
      rw [hr] at hp
      rw [ih hp.2, hp.1]

/-- Generations count down along a walk. -/
theorem Walked.sequence (h : Walked X l n next seen ws) {i : ℕ} {r : CanonicalRecord} (hr : ws[i]? = some r) :
    r.sequence.toNat + i = n := by
  induction ws generalizing n next seen i with
  | nil => cases hr
  | cons w ws ih =>
    obtain ⟨-, -, -, hn, hp⟩ := h
    cases i with
    | zero =>
      cases hr
      exact hn
    | succ i =>
      cases hw : w.prior with
      | none =>
        rw [hw] at hp
        rw [hp.2] at hr
        cases hr
      | some prior =>
        rw [hw] at hp
        have := ih hp.2 hr
        omega

/-- A walk meets no digest it came by before. -/
theorem Walked.not_mem_seen (h : Walked X l n next seen ws) {r : CanonicalRecord} (hr : r ∈ ws) : r.digest X ∉ seen := by
  induction ws generalizing n next seen with
  | nil => cases hr
  | cons w ws ih =>
    obtain ⟨-, hs, hd, -, hp⟩ := h
    rcases List.mem_cons.1 hr with rfl | hr
    · rwa [hd]
    cases hw : w.prior with
    | none =>
      rw [hw] at hp
      rw [hp.2] at hr
      cases hr
    | some prior =>
      rw [hw] at hp
      exact fun hm => ih hp.2 hr (List.mem_cons_of_mem _ hm)

theorem Walked.nodup (h : Walked X l n next seen ws) : (ws.map (·.digest X)).Nodup := by
  induction ws generalizing n next seen with
  | nil => exact List.nodup_nil
  | cons w ws ih =>
    obtain ⟨-, -, hd, -, hp⟩ := h
    rw [List.map_cons, List.nodup_cons]
    cases hw : w.prior with
    | none =>
      rw [hw] at hp
      rw [hp.2]
      exact ⟨nofun, List.nodup_nil⟩
    | some prior =>
      rw [hw] at hp
      refine ⟨fun hm => ?_, ih hp.2⟩
      obtain ⟨r, hr, he⟩ := List.mem_map.1 hm
      exact hp.2.not_mem_seen hr (he ▸ hd ▸ List.mem_cons_self)

theorem Walked.lineage (h : Walked X l n next seen ws) {r : CanonicalRecord} (hr : r ∈ ws) : r.lineage = l := by
  induction ws generalizing n next seen with
  | nil => cases hr
  | cons w ws ih =>
    obtain ⟨hl, -, -, -, hp⟩ := h
    rcases List.mem_cons.1 hr with rfl | hr
    · exact hl
    cases hw : w.prior with
    | none =>
      rw [hw] at hp
      rw [hp.2] at hr
      cases hr
    | some prior =>
      rw [hw] at hp
      exact ih hp.2 hr

/-- Walks from one digest go over the same records, as far as a digest names one record of both. -/
theorem Walked.unique {ws' : List CanonicalRecord} {seen' : List RecordDigest} (h : Walked X l n next seen ws)
    (h' : Walked X l n next seen' ws') (hd : ∀ r ∈ ws, ∀ r' ∈ ws', r.digest X = r'.digest X → r = r') : ws = ws' := by
  induction ws generalizing n next seen seen' ws' with
  | nil => exact absurd h id
  | cons r ws ih =>
    cases ws' with
    | nil => exact absurd h' id
    | cons r' ws' =>
      obtain ⟨-, -, he, -, hp⟩ := h
      obtain ⟨-, -, he', -, hp'⟩ := h'
      obtain rfl : r = r' := hd r (List.mem_cons_self ..) r' (List.mem_cons_self ..) (he.trans he'.symm)
      cases hr : r.prior with
      | none =>
        rw [hr] at hp hp'
        rw [hp.2, hp'.2]
      | some prior =>
        rw [hr] at hp hp'
        rw [ih hp.2 hp'.2 fun r hr r' hr' => hd r (List.mem_cons_of_mem _ hr) r' (List.mem_cons_of_mem _ hr')]

/-- A record is the same record whatever the policy of its lineage. -/
def CanonicalRecord.inLineage (l : KernelLineage) (r : CanonicalRecord) : CanonicalRecord := { r with lineage := l }

theorem CanonicalRecord.projected_inLineage {r : CanonicalRecord} (hv : l.value = r.lineage.value) :
    (r.inLineage l).projected X = r.projected X := by
  have hb : (r.inLineage l).canonicalBytes X = r.canonicalBytes X := by
    rw [canonicalBytes, canonicalBytes, wire, wire, inLineage, hv]
  rw [projected, projected, digest, digest, hb]

theorem Walked.inLineage {l' : KernelLineage} (hv : l'.value = l.value) (h : Walked X l n next seen ws) :
    Walked X l' n next seen (ws.map (CanonicalRecord.inLineage l')) := by
  induction ws generalizing n next seen with
  | nil => exact absurd h id
  | cons r ws ih =>
    obtain ⟨hl, hs, hd, hn, hp⟩ := h
    have hd' : (r.inLineage l').digest X = r.digest X :=
      congrArg ProjectedRecord.digest (CanonicalRecord.projected_inLineage (by rw [hv, hl]))
    have hprior : (r.inLineage l').prior = r.prior := rfl
    refine ⟨rfl, hs, hd'.trans hd, hn, ?_⟩
    rw [hprior]
    cases hr : r.prior with
    | none =>
      rw [hr] at hp
      rw [hp.2]
      exact ⟨hp.1, rfl⟩
    | some prior =>
      rw [hr] at hp
      exact ⟨hp.1, ih hp.2⟩

/-! ### Walks that succeed -/

/-- Which results a program of kind `m` gives. -/
structure Results (m : Type → Type) [Monad m] [MonadExceptOf KernelError m] where
  gives : {α : Type} → m α → α → Prop
  gives_pure : ∀ {α : Type} {a b : α}, gives (pure a) b ↔ a = b
  gives_bind : ∀ {α β : Type} {x : m α} {f : α → m β} {b : β}, gives (x >>= f) b ↔ ∃ a, gives x a ∧ gives (f a) b
  gives_throw : ∀ {α : Type} {e : KernelError} {a : α}, ¬ gives (throw e) a

/-- What an `Except` succeeds with. -/
def Results.except : Results (Except KernelError) where
  gives x a := x = .ok a
  gives_pure := ⟨Except.ok.inj, congrArg Except.ok⟩
  gives_bind {_ _ x _ _} := by
    cases x with
    | ok a => exact ⟨fun h => ⟨a, rfl, h⟩, fun ⟨_, ha, h⟩ => Except.ok.inj ha ▸ h⟩
    | error e => exact ⟨nofun, fun ⟨_, ha, _⟩ => nomatch ha⟩
  gives_throw := nofun

/-- What an operation returns when its requests are answered by `v`. -/
def Results.reading (v : (r : Req) → Resp r) : Results KernelOp where
  gives x a := x.run.answer v = some (.ok a)
  gives_pure := by simp
  gives_bind := Op.answer_bind_ok
  gives_throw := by simp

section
variable {m : Type → Type} [Monad m] [LawfulMonad m] [MonadExceptOf KernelError m] (R : Results m)
  {load : RecordDigest → m CanonicalRecord} {headPrior : Option (Option RecordPosition)}

omit [LawfulMonad m] in
theorem Results.gives_walkRecord {rest : CanonicalRecord → m (List CanonicalRecord)} :
    R.gives (walkRecord X l load n headPrior next seen rest) ws ↔ next ∉ seen ∧ ∃ r, R.gives (load next) r ∧
      r.digest X = next ∧ r.sequence.toNat = n ∧ (∀ p, headPrior = some p → p = r.prior) ∧ R.gives (rest r) ws := by
  unfold walkRecord
  by_cases hs : next ∈ seen
  · rw [if_pos hs]
    exact ⟨fun h => absurd h R.gives_throw, fun h => absurd hs h.1⟩
  rw [if_neg hs, R.gives_bind]
  refine ⟨fun ⟨r, hr, h⟩ => ⟨hs, r, hr, ?_⟩, fun ⟨_, r, hr, hd, hn, hp, h⟩ => ⟨r, hr, ?_⟩⟩
  · unfold checkRecord at h
    by_cases hc : r.digest X ≠ next ∨ r.sequence.toNat ≠ n
    · rw [if_pos hc] at h
      exact absurd h R.gives_throw
    rw [if_neg hc] at h
    by_cases hp : headPrior.any (· ≠ r.prior) = true
    · rw [if_pos hp] at h
      exact absurd h R.gives_throw
    rw [if_neg hp] at h
    simp only [ne_eq, not_or, not_not] at hc
    refine ⟨hc.1, hc.2, ?_, h⟩
    rintro p rfl
    simpa using hp
  · have hp' : ¬ headPrior.any (· ≠ r.prior) = true := by
      cases headPrior with
      | none => simp
      | some p => simp [hp p rfl]
    unfold checkRecord
    rw [if_neg (by simp [hd, hn]), if_neg hp']
    exact h

/-- A walk succeeds exactly over the records its loads give. -/
theorem Results.gives_walkHistory (hl : ∀ d r, R.gives (load d) r → r.lineage = l) :
    R.gives (walkHistory X l load n headPrior next seen) ws ↔ Walked X l n next seen ws ∧
      (∀ r ∈ ws, R.gives (load (r.digest X)) r) ∧ ∀ p, headPrior = some p → ∀ r, ws.head? = some r → p = r.prior := by
  induction n generalizing headPrior next seen ws with
  | zero =>
    rw [walkHistory, R.gives_walkRecord]
    constructor
    · rintro ⟨hs, r, hr, hd, hn, hp, h⟩
      cases hprior : r.prior with
      | some prior =>
        rw [hprior] at h
        exact absurd h R.gives_throw
      | none =>
        rw [hprior] at h
        obtain rfl := R.gives_pure.1 h
        refine ⟨⟨hl _ _ hr, hs, hd, hn, ?_⟩, ?_, ?_⟩
        · rw [hprior]
          exact ⟨rfl, rfl⟩
        · rintro r' hr'
          rw [List.mem_singleton.1 hr', hd]
          exact hr
        · rintro p hpe _ ⟨⟩
          exact hp p hpe
    · rintro ⟨hw, hr, hp⟩
      cases ws with
      | nil => exact absurd hw id
      | cons r ws =>
        obtain ⟨-, hs, hd, hn, hprior⟩ := hw
        refine ⟨hs, r, hd ▸ hr r (List.mem_cons_self ..), hd, hn, fun p hpe => hp p hpe r rfl, ?_⟩
        cases he : r.prior with
        | none =>
          rw [he] at hprior
          rw [hprior.2]
          exact R.gives_pure.2 rfl
        | some prior =>
          rw [he] at hprior
          exact absurd hprior.1 (Nat.succ_ne_zero _)
  | succ n ih =>
    rw [walkHistory, R.gives_walkRecord]
    constructor
    · rintro ⟨hs, r, hr, hd, hn, hp, h⟩
      cases hprior : r.prior with
      | none =>
        rw [hprior] at h
        exact absurd h R.gives_throw
      | some prior =>
        rw [hprior] at h
        by_cases hg : prior.generation.toNat = n
        swap
        · simp only [if_neg hg] at h
          exact absurd h R.gives_throw
        simp only [if_pos hg, map_eq_pure_bind] at h
        obtain ⟨rs, hrs, h⟩ := R.gives_bind.1 h
        obtain rfl := R.gives_pure.1 h
        obtain ⟨hw, hloads, -⟩ := ih.1 hrs
        refine ⟨⟨hl _ _ hr, hs, hd, hn, ?_⟩, ?_, ?_⟩
        · rw [hprior]
          exact ⟨by rw [hg], by rw [hg]; exact hw⟩
        · intro r' hr'
          rcases List.mem_cons.1 hr' with rfl | hr'
          · rw [hd]
            exact hr
          · exact hloads r' hr'
        · rintro p hpe _ ⟨⟩
          exact hp p hpe
    · rintro ⟨hw, hr, hp⟩
      cases ws with
      | nil => exact absurd hw id
      | cons r ws =>
        obtain ⟨-, hs, hd, hn, hprior⟩ := hw
        refine ⟨hs, r, hd ▸ hr r (List.mem_cons_self ..), hd, hn, fun p hpe => hp p hpe r rfl, ?_⟩
        cases he : r.prior with
        | none =>
          rw [he] at hprior
          exact absurd hprior.1 (Nat.succ_ne_zero _)
        | some prior =>
          rw [he] at hprior
          have hg : prior.generation.toNat = n := by omega
          simp only [if_pos hg, map_eq_pure_bind]
          have hw' : Walked X l n prior.digest (next :: seen) ws := hg ▸ hprior.2
          refine R.gives_bind.2 ⟨ws, ih.2 ⟨hw', fun r' hr' => hr r' (List.mem_cons_of_mem _ hr'), nofun⟩, ?_⟩
          exact R.gives_pure.2 rfl

end

/-! ### What a projection carries -/

theorem firstDuplicate_eq_none {ds : List RecordDigest} :
    firstDuplicate seen ds = none ↔ ds.Nodup ∧ ∀ d ∈ ds, d ∉ seen := by
  induction ds generalizing seen with
  | nil => simp [firstDuplicate]
  | cons d ds ih =>
    unfold firstDuplicate
    by_cases hd : d ∈ seen
    · rw [if_pos hd]
      simp [hd]
    · rw [if_neg hd, ih]
      simp only [List.nodup_cons, List.mem_cons]
      grind

namespace FoldProjection

theorem checkOrder_eq_ok {rs : List CanonicalRecord} {ps : List ProjectedRecord} : checkOrder X l n rs ps = .ok () ↔
    ∀ i r q, rs[i]? = some r → ps[i]? = some q → r.sequence.toNat = n + i ∧ r.digest X = q.digest := by
  induction rs generalizing n ps with
  | nil => simp [checkOrder]
  | cons r rs ih =>
    cases ps with
    | nil => simp [checkOrder]
    | cons q ps =>
      unfold checkOrder
      by_cases hc : r.sequence.toNat ≠ n ∨ r.digest X ≠ q.digest
      · rw [if_pos hc]
        refine ⟨nofun, fun h => ?_⟩
        obtain ⟨hn, hd⟩ := h 0 r q rfl rfl
        simp [hn, hd] at hc
      · rw [if_neg hc, ih]
        simp only [ne_eq, not_or, not_not] at hc
        constructor
        · intro h i r' q' hr hq
          cases i with
          | zero =>
            cases hr
            cases hq
            exact hc
          | succ i =>
            obtain ⟨hn, hd⟩ := h i r' q' hr hq
            exact ⟨by omega, hd⟩
        · intro h i r' q' hr hq
          obtain ⟨hn, hd⟩ := h (i + 1) r' q' hr hq
          exact ⟨by omega, hd⟩

theorem load_eq_ok {p : FoldProjection} {d : RecordDigest} {r : CanonicalRecord} (h : p.load X l d = .ok r) :
    r.lineage = l ∧ r.digest X = d ∧ r.projected X ∈ p.records := by
  unfold load at h
  split at h
  · cases h
  next q hq =>
  obtain ⟨hb, hl, hd⟩ := CanonicalRecord.canonicalBytes_of_fromBytes h
  have hqd : q.digest = d := by simpa using List.find?_some hq
  refine ⟨hl, hd, ?_⟩
  have he : r.projected X = q := by rw [CanonicalRecord.projected, hd, ← hb, ← hqd]
  exact he ▸ List.mem_of_find?_eq_some hq

/-- A copy is found by its digest, when digests name one copy each. -/
theorem load_projected {p : FoldProjection} {r : CanonicalRecord} (hn : (p.records.map (·.digest)).Nodup)
    (hr : r.projected X ∈ p.records) (hl : r.lineage = l) : p.load X l (r.digest X) = .ok r := by
  unfold load
  split
  · next hnone => exact absurd (List.find?_eq_none.1 hnone _ hr) (by simp [CanonicalRecord.projected])
  · next q hq =>
    have hqd : q.digest = r.digest X := by simpa using List.find?_some hq
    obtain rfl : q = r.projected X := List.inj_on_of_nodup_map hn (List.mem_of_find?_eq_some hq) hr hqd
    rw [← hl]
    exact CanonicalRecord.fromBytes_canonicalBytes r

/-- A projection is accepted for a lineage if and only if it copies, in order, the records of a walk from its
source. -/
theorem recordsForSource_eq_ok {p : FoldProjection} {rs : List CanonicalRecord} : p.recordsForSource X l = .ok rs ↔
    p.source.lineage = l.value ∧ p.source.generation.toNat + 1 < 2 ^ 64 ∧
      Walked X l p.source.generation.toNat p.source.digest [] rs.reverse ∧
      p.records = rs.map (CanonicalRecord.projected X) := by
  have hwalk : ∀ {ws}, walkHistory X l (p.load X l) p.source.generation.toNat none p.source.digest [] = .ok ws ↔
      Walked X l p.source.generation.toNat p.source.digest [] ws ∧ ∀ r ∈ ws, p.load X l (r.digest X) = .ok r := fun {ws} =>
    (Results.except.gives_walkHistory fun d r h => (load_eq_ok h).1).trans <|
      and_congr_right fun _ => and_iff_left fun _ h => nomatch h
  unfold recordsForSource
  dsimp only
  constructor
  · intro h
    split at h
    · cases h
    next hlin =>
    split at h
    · cases h
    next hfits =>
    split at h
    · cases h
    next hdup =>
    split at h
    · cases h
    next hlen =>
    split at h
    · cases h
    next walked hw =>
    split at h
    · cases h
    next hwlen =>
    split at h
    · cases h
    next horder =>
    cases h
    rw [not_not] at hlin hlen hwlen
    obtain ⟨hw, hloads⟩ := hwalk.1 hw
    have hnodup := (firstDuplicate_eq_none.1 hdup).1
    rw [checkOrder_eq_ok] at horder
    refine ⟨hlin, by omega, by rwa [List.reverse_reverse], List.ext_getElem? fun i => ?_⟩
    rw [List.getElem?_map]
    rcases Nat.lt_or_ge i p.records.length with hi | hi
    · have hr := List.getElem?_eq_getElem (l := walked.reverse) (i := i) (by rw [List.length_reverse]; omega)
      have hq := List.getElem?_eq_getElem hi
      rw [hr, hq, Option.map_some]
      have hd := (horder i _ _ hr hq).2
      have hm := (load_eq_ok (hloads _ (List.mem_reverse.1 (List.mem_of_getElem? hr)))).2.2
      exact congrArg some (List.inj_on_of_nodup_map hnodup (List.mem_of_getElem? hq) hm hd.symm)
    · rw [List.getElem?_eq_none hi, List.getElem?_eq_none (by rw [List.length_reverse]; omega), Option.map_none]
  · rintro ⟨hlin, hfits, hw, hrec⟩
    have hlen : p.records.length = p.source.generation.toNat + 1 := by
      rw [hrec, List.length_map, ← List.length_reverse, hw.length]
    have hdigests : p.records.map (·.digest) = rs.map (·.digest X) := by
      rw [hrec, List.map_map]
      rfl
    have hnodup : (p.records.map (·.digest)).Nodup := by
      have := hw.nodup
      rwa [List.map_reverse, List.nodup_reverse, ← hdigests] at this
    have hloads : ∀ r ∈ rs.reverse, p.load X l (r.digest X) = .ok r := fun r hr =>
      load_projected hnodup (hrec ▸ List.mem_map_of_mem (List.mem_reverse.1 hr)) (hw.lineage hr)
    have horder : checkOrder X l 0 rs p.records = .ok () := by
      refine checkOrder_eq_ok.2 fun i r q hr hq => ?_
      rw [hrec, List.getElem?_map, hr, Option.map_some] at hq
      cases hq
      have hi : i < rs.length := (List.getElem?_eq_some_iff.1 hr).1
      have hrl : rs.length = p.source.generation.toNat + 1 := by rw [← List.length_reverse, hw.length]
      have hrev : rs.reverse[rs.length - 1 - i]? = some r := by
        rw [List.getElem?_reverse (by omega), ← hr]
        congr 1
        omega
      have := hw.sequence hrev
      exact ⟨by omega, rfl⟩
    rw [if_neg (not_not.2 hlin), if_neg (by omega), firstDuplicate_eq_none.2 ⟨hnodup, by simp⟩]
    dsimp only
    rw [if_neg (not_not.2 hlen)]
    rw [hwalk.2 ⟨hw, hloads⟩]
    dsimp only
    rw [if_neg (by rw [not_not, hw.length, hlen]), List.reverse_reverse, horder]

/-- The copy of a history that was walked is accepted, whatever the policy of the lineage. -/
theorem recordsForSource_fromAuthoritative {h : CanonicalHead} {rs : List CanonicalRecord}
    (hw : Walked X h.lineage h.generation.toNat h.recordDigest [] rs.reverse) (hn : h.generation.toNat + 1 < 2 ^ 64)
    (hv : l.value = h.lineage.value) :
    (fromAuthoritative X h rs).recordsForSource X l = .ok (rs.map (CanonicalRecord.inLineage l)) := by
  refine recordsForSource_eq_ok.2 ⟨hv.symm, hn, ?_, ?_⟩
  · rw [← List.map_reverse]
    exact hw.inLineage hv
  · rw [List.map_map]
    refine List.map_congr_left fun r hr => (CanonicalRecord.projected_inLineage ?_).symm
    rw [hv, hw.lineage (List.mem_reverse.2 hr)]

/-! ### The format of projections -/

theorem ofWires_map_wire (err : KernelError) (ps : List ProjectedRecord) :
    ProjectedRecord.ofWires l err (ps.map ProjectedRecord.wire) = .ok ps := by
  have hone : ∀ q : ProjectedRecord, ProjectedRecord.ofWire l err q.wire = .ok q := fun q => by
    simp [ProjectedRecord.ofWire, ProjectedRecord.wire]
  induction ps with
  | nil => rfl
  | cons q ps ih => rw [List.map_cons, ProjectedRecord.ofWires, hone q, ih]

theorem canonicalBytes_eq_ok {p : FoldProjection} {bytes : Bytes} : p.canonicalBytes X = .ok bytes ↔
    ∃ lineage rs, KernelLineage.new p.source.lineage .successorCapable = .ok lineage ∧
      p.recordsForSource X lineage = .ok rs ∧ bytes = X.projection.toVec p.wire := by
  unfold canonicalBytes
  cases KernelLineage.new p.source.lineage .successorCapable with
  | error e => simp
  | ok lineage =>
    dsimp only
    cases he : p.recordsForSource X lineage with
    | error e => exact ⟨nofun, fun ⟨_, _, h, hrs, _⟩ => by cases h; rw [he] at hrs; cases hrs⟩
    | ok rs =>
      refine ⟨fun h => ⟨lineage, rs, rfl, he, (Except.ok.inj h).symm⟩, ?_⟩
      rintro ⟨_, _, -, -, rfl⟩
      rfl

theorem new_eq_ok {value : Str} {policy : SuccessorPolicy} (h : KernelLineage.new value policy = .ok l) : l.value = value := by
  unfold KernelLineage.new at h
  split at h <;> cases h
  rfl

/-- Every projection that has an encoding reads back. -/
theorem fromCanonicalBytes_canonicalBytes {p : FoldProjection} {bytes : Bytes} (h : p.canonicalBytes X = .ok bytes) :
    fromCanonicalBytes X bytes = .ok p := by
  obtain ⟨lineage, rs, hnew, hrs, rfl⟩ := canonicalBytes_eq_ok.1 h
  have hsource : ofSource X lineage p.source.digest p.wire (X.projection.toVec p.wire) = .ok p := by
    have hp : (⟨⟨lineage.value, p.wire.sourceGeneration, p.source.digest⟩, p.records⟩ : FoldProjection) = p := by
      rw [new_eq_ok hnew]
      rfl
    have hw : ProjectedRecord.ofWires lineage (.stateRecordMalformed (.forDigest lineage p.source.digest)) p.wire.records =
        .ok p.records := ofWires_map_wire _ _
    simp only [ofSource, hw, hp, h, hrs, ne_eq, not_true_eq_false, if_false]
  have henv : p.wire.envelope = projectionEnvelope := rfl
  have hlin : p.wire.sourceLineage = p.source.lineage := rfl
  have hdig : p.wire.sourceDigest = p.source.digest.hex := rfl
  rw [fromCanonicalBytes, X.projection.fromSlice_toVec]
  simp only [henv, hlin, hnew, hdig, RecordDigest.parse_hex, hsource, ne_eq, not_true_eq_false, if_false]

/-- What reads as a projection is its encoding. -/
theorem canonicalBytes_of_fromCanonicalBytes {p : FoldProjection} {bytes : Bytes}
    (h : fromCanonicalBytes X bytes = .ok p) : p.canonicalBytes X = .ok bytes := by
  unfold fromCanonicalBytes at h
  split at h
  · cases h
  split at h
  · cases h
  split at h
  · cases h
  split at h
  · cases h
  unfold ofSource at h
  dsimp only at h
  split at h
  · cases h
  split at h
  · cases h
  next encoded henc =>
  split at h
  · cases h
  next hbytes =>
  split at h
  · cases h
  cases h
  rw [not_not] at hbytes
  rw [henc, hbytes]

end FoldProjection

/-! ### The four formats -/

/-- The formats of records, checkpoints, heads and projections are canonical. A head has no constructor that checks
it: it is well-formed when its prior position is the one before its generation. -/
theorem formats_canonical (X : Crates) :
    (∀ r : CanonicalRecord, CanonicalRecord.fromBytes X r.lineage (r.digest X) (r.canonicalBytes X) = .ok r) ∧
    (∀ l d bytes r, CanonicalRecord.fromBytes X l d bytes = .ok r →
      bytes = r.canonicalBytes X ∧ r.lineage = l ∧ r.digest X = d) ∧
    (∀ c : CanonicalCheckpoint, CanonicalCheckpoint.fromBytes X c.lineage (c.digest X) (c.canonicalBytes X) = .ok c) ∧
    (∀ l d bytes c, CanonicalCheckpoint.fromBytes X l d bytes = .ok c →
      bytes = c.canonicalBytes X ∧ c.lineage = l ∧ c.digest X = d) ∧
    (∀ l bytes h, CanonicalHead.fromBytes X l bytes = .ok h ↔ h.lineage = l ∧ h.WellFormed ∧
      (bytes = h.canonicalBytes X ∨ h.incarnation = 0 ∧ bytes = h.legacyV1Bytes X)) ∧
    (∀ h h' : CanonicalHead, h.canonicalBytes X ≠ h'.legacyV1Bytes X) ∧
    (∀ p bytes, FoldProjection.fromCanonicalBytes X bytes = .ok p ↔ p.canonicalBytes X = .ok bytes) ∧
    (∀ (h : CanonicalHead) rs, Walked X h.lineage h.generation.toNat h.recordDigest [] rs.reverse →
      h.generation.toNat + 1 < 2 ^ 64 → ∃ bytes, (FoldProjection.fromAuthoritative X h rs).canonicalBytes X = .ok bytes) := by
  refine ⟨CanonicalRecord.fromBytes_canonicalBytes, fun _ _ _ _ => CanonicalRecord.canonicalBytes_of_fromBytes,
    CanonicalCheckpoint.fromBytes_canonicalBytes, fun _ _ _ _ => CanonicalCheckpoint.canonicalBytes_of_fromBytes,
    fun l bytes h => ⟨CanonicalHead.bytes_of_fromBytes, ?_⟩, CanonicalHead.canonicalBytes_ne_legacyV1Bytes,
    fun p bytes => ⟨FoldProjection.canonicalBytes_of_fromCanonicalBytes, FoldProjection.fromCanonicalBytes_canonicalBytes⟩,
    fun h rs hw hn => ?_⟩
  · rintro ⟨rfl, hw, rfl | ⟨h0, rfl⟩⟩
    · exact CanonicalHead.fromBytes_canonicalBytes hw
    · exact CanonicalHead.fromBytes_legacyV1Bytes hw h0
  · -- the policy is not part of the encoding
    have hnew : KernelLineage.new (FoldProjection.fromAuthoritative X h rs).source.lineage .successorCapable =
        .ok ⟨h.lineage.value, .successorCapable, h.lineage.valid⟩ := dif_pos h.lineage.valid
    exact ⟨_, FoldProjection.canonicalBytes_eq_ok.2
      ⟨_, _, hnew, FoldProjection.recordsForSource_fromAuthoritative hw hn rfl, rfl⟩⟩

/-- A head of the first lifetime reads back from the format heads had before. -/
theorem formats_canonical_letterHead :
    CanonicalHead.fromBytes Serde.crates letterLineage (letterHead.head.legacyV1Bytes Serde.crates) = .ok letterHead.head :=
  ((formats_canonical Serde.crates).2.2.2.2.1 _ _ _).2 ⟨rfl, by decide +kernel, .inr ⟨rfl, rfl⟩⟩

end YeetzS3.Lineage
