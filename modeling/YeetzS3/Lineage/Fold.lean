import YeetzS3.Lineage.Projection
import YeetzS3.Region

/-!
# Folds

A fold replays the history of the head through the caller's vocabulary (`LineageFold`). A projection may stand in for
the records, and a checkpoint may be checked against the replay; neither may change what the fold says. The reads of
one fold are answered by one fixed `v`, so the statements are about every content of the bucket and every pattern of
failing reads.
-/

namespace YeetzS3.Lineage

open Conc

/-! ### The vocabulary -/

/-- `FoldRecord`: what a fold may see of a record. -/
structure FoldRecord where
  sequence : UInt64
  transitionSchema : Str
  transitionType : Str
  payload : Bytes
  reference : SafeReference
deriving DecidableEq

/-- `fold_record`. -/
def CanonicalRecord.foldRecord (r : CanonicalRecord) : FoldRecord where
  sequence := r.sequence
  transitionSchema := r.transitionSchema
  transitionType := r.transitionType
  payload := r.payload
  reference := r.reference none

/-- `LineageFold`. -/
structure LineageFold (σ : Type) where
  validateTransition : FoldRecord → Option Unit
  initialState : σ
  apply : σ → FoldRecord → Option σ
  canonicalState : σ → Option Bytes
  restoreCheckpoint : Str → Bytes → Option σ

/-- `CheckpointRejectionCode`. -/
inductive CheckpointRejectionCode where
  | digestMismatch
  | stateRecordMalformed
  | stateHistoryIncomplete
  | protocolEpochUnsupported
deriving DecidableEq

/-- `CheckpointRejection`. -/
structure CheckpointRejection where
  code : CheckpointRejectionCode
  reference : SafeReference
deriving DecidableEq

/-- `CheckpointRejection::from_error`. -/
def CheckpointRejection.fromError : KernelError → Option CheckpointRejection
  | .digestMismatch reference => some ⟨.digestMismatch, reference⟩
  | .stateRecordMalformed reference => some ⟨.stateRecordMalformed, reference⟩
  | .stateHistoryIncomplete reference => some ⟨.stateHistoryIncomplete, reference⟩
  | .protocolEpochUnsupported reference _ => some ⟨.protocolEpochUnsupported, reference⟩
  | .lineageHeadConflict _ | .successorNotAllowed _ | .tombstoneCorrupt _ | .stateUnavailable _ => none

/-- `ProjectionDisposition`. -/
inductive ProjectionDisposition where
  | absent
  | used
  | discarded
deriving DecidableEq

/-- `FoldOutcome`. -/
structure FoldOutcome (σ : Type) where
  state : σ
  canonicalState : Bytes
  records : List SafeReference
  checkpointRejections : List CheckpointRejection
  projection : ProjectionDisposition
deriving DecidableEq

variable (X : Crates) (l : KernelLineage) {σ : Type} (F : LineageFold σ)

/-! ### The full fold -/

/-- `validate_transitions`. -/
def validateTransitions : List CanonicalRecord → Except KernelError Unit
  | [] => .ok ()
  | record :: records =>
    match F.validateTransition record.foldRecord with
    | none => .error (.stateRecordMalformed (record.reference (some (record.digest X))))
    | some () => validateTransitions records

/-- Apply records one after another, up to the first that does not apply. -/
def applyRecords : σ → List CanonicalRecord → Except CanonicalRecord σ
  | state, [] => .ok state
  | state, record :: records =>
    match F.apply state record.foldRecord with
    | none => .error record
    | some state => applyRecords state records

/-- `fold_full`. -/
def foldFull (records : List CanonicalRecord) : Except KernelError (σ × Bytes) :=
  match applyRecords F F.initialState records with
  | .error record => .error (.stateRecordMalformed (record.reference (some (record.digest X))))
  | .ok state =>
    match F.canonicalState state with
    | none => .error (.stateRecordMalformed (.forLineage l))
    | some bytes => .ok (state, bytes)

/-! ### Checkpoints -/

/-- `load_checkpoint`. -/
def loadCheckpoint (digest : RecordDigest) : KernelOp CanonicalCheckpoint := do
  match ← download (l.checkpointKey digest) with
  | .ok (bytes, _) => check (CanonicalCheckpoint.fromBytes X l digest bytes)
  | .error .notFound => throw (.stateHistoryIncomplete (.forDigest l digest))
  | .error _ => unavailable "checkpoint read"

/-- `validate_checkpoint_basis`. -/
def validateCheckpointBasis (checkpoint : CanonicalCheckpoint) (head : CanonicalHead) (records : List CanonicalRecord) :
    Except KernelError Unit :=
  if l.sameIdentity checkpoint.lineage = false then .error (.stateRecordMalformed (.forLineage l))
  else if checkpoint.sourceGeneration > head.generation then .error (.stateHistoryIncomplete (.forLineage l))
  else match records[checkpoint.sourceGeneration.toNat]? with
    | none => .error (.stateHistoryIncomplete (.forLineage l))
    | some source =>
      if checkpoint.sourceHeadDigest ≠ source.digest X ∨ checkpoint.lastIncludedRecordDigest ≠ source.digest X then
        .error (.stateHistoryIncomplete (source.reference (some (source.digest X))))
      else .ok ()

/-- The records behind a checkpoint. -/
def recordsAfter (checkpoint : CanonicalCheckpoint) (records : List CanonicalRecord) : List CanonicalRecord :=
  records.drop (match checkedSucc checkpoint.sourceGeneration with
    | some start => start.toNat
    | none => records.length)

/-- The replay from a checkpoint, compared with the full fold. -/
def replayCheckpoint (digest : RecordDigest) (checkpoint : CanonicalCheckpoint) (records : List CanonicalRecord)
    (fullState : Bytes) : List CheckpointRejection :=
  match F.restoreCheckpoint checkpoint.transitionSchema checkpoint.stateBytes with
  | none => [⟨.stateRecordMalformed, .forDigest l digest⟩]
  | some state =>
    match applyRecords F state (recordsAfter checkpoint records) with
    | .error record => [⟨.stateRecordMalformed, record.reference (some (record.digest X))⟩]
    | .ok state =>
      match F.canonicalState state with
      | none => [⟨.stateRecordMalformed, .forDigest l digest⟩]
      | some bytes => if bytes = fullState then [] else [⟨.stateHistoryIncomplete, .forDigest l digest⟩]

/-- `check_checkpoint`: the rejections it reports. -/
def checkCheckpoint (digest : RecordDigest) (head : CanonicalHead) (records : List CanonicalRecord) (fullState : Bytes) :
    KernelOp (List CheckpointRejection) := do
  match ← Op.attempt (loadCheckpoint X l digest) with
  | .error e =>
    match CheckpointRejection.fromError e with
    | some rejection => pure [rejection]
    | none => throw e
  | .ok checkpoint =>
    match validateCheckpointBasis X l checkpoint head records with
    | .error e =>
      match CheckpointRejection.fromError e with
      | some rejection => pure [rejection]
      | none => throw e
    | .ok () => pure (replayCheckpoint X l F digest checkpoint records fullState)

/-! ### Folds -/

/-- The references of the records a fold went over. -/
def references (records : List CanonicalRecord) : List SafeReference :=
  records.map fun record => record.reference (some (record.digest X))

/-- `fold_records`. -/
def foldRecords (head : CanonicalHead) (records : List CanonicalRecord) (checkpointDigest : Option RecordDigest)
    (projection : ProjectionDisposition) : KernelOp (FoldOutcome σ) := do
  check (validateTransitions X F records)
  let (state, canonicalState) ← check (foldFull X l F records)
  let checkpointRejections ← match checkpointDigest with
    | some digest => checkCheckpoint X l F digest head records canonicalState
    | none => pure []
  pure ⟨state, canonicalState, references X records, checkpointRejections, projection⟩

/-- `fold`. -/
def fold (checkpointDigest : Option RecordDigest) : KernelOp (FoldOutcome σ) := do
  let loaded ← loadHead X l
  let records ← loadHistory X l loaded.1
  foldRecords X l F loaded.1 records checkpointDigest .absent

/-- `load_projected_history`. -/
def loadProjectedHistory (projection : FoldProjection) (head : CanonicalHead) : Except KernelError (List CanonicalRecord) :=
  if projection.source.matches head = false then .error (.stateHistoryIncomplete (.forLineage l))
  else match projection.recordsForSource X l with
    | .error e => .error e
    | .ok records =>
      match records.getLast? with
      | none => .error (.stateHistoryIncomplete (.forLineage l))
      | some terminal =>
        if head.prior ≠ terminal.prior then
          .error (.stateHistoryIncomplete (terminal.reference (some head.recordDigest)))
        else .ok records

/-- `fold_with_projection`. -/
def foldWithProjection (projection : Option FoldProjection) : KernelOp (FoldOutcome σ) := do
  let loaded ← loadHead X l
  match projection with
  | none =>
    let records ← loadHistory X l loaded.1
    foldRecords X l F loaded.1 records none .absent
  | some projection =>
    match loadProjectedHistory X l projection loaded.1 with
    | .ok records => foldRecords X l F loaded.1 records none .used
    | .error _ =>
      let records ← loadHistory X l loaded.1
      foldRecords X l F loaded.1 records none .discarded

/-- `fold_at_generation`. -/
def foldAtGeneration (generation : UInt64) : KernelOp (FoldOutcome σ) := do
  let loaded ← loadHead X l
  if generation > loaded.1.generation then throw (.stateHistoryIncomplete loaded.1.reference)
  else
    let records ← loadHistory X l loaded.1
    match checkedSucc generation with
    | none => throw (.stateHistoryIncomplete loaded.1.reference)
    | some prefixLen =>
      match (records.take prefixLen.toNat).getLast? with
      | none => throw (.stateHistoryIncomplete loaded.1.reference)
      | some terminal =>
        foldRecords X l F ⟨l, generation, loaded.1.incarnation, terminal.digest X, terminal.prior⟩
          (records.take prefixLen.toNat) none .absent

/-- `rebuild_projection`. -/
def rebuildProjection : KernelOp FoldProjection := do
  let loaded ← loadHead X l
  let records ← loadHistory X l loaded.1
  pure (.fromAuthoritative X loaded.1 records)

/-! ### What a fold reads -/

variable (v : (r : Req) → Resp r)

/-- The head and the history every fold over the answers `v` is about. -/
def Authoritative (head : CanonicalHead) (records : List CanonicalRecord) : Prop :=
  (∃ etag, (loadHead X l).run.answer v = some (.ok (head, etag))) ∧
    (loadHistory X l head).run.answer v = some (.ok records)

/-- The checkpoint object of digest `c` is canonical for the lineage, names the record at its source generation, and
replaying the records behind it leads to `canonicalState`. -/
def CheckpointAgrees (c : RecordDigest) (records : List CanonicalRecord) (canonicalState : Bytes) : Prop :=
  ∃ checkpoint : CanonicalCheckpoint, checkpoint.lineage = l ∧ checkpoint.digest X = c ∧
    (∃ etag, v (.get (l.checkpointKey c)) = .ok (checkpoint.canonicalBytes X, etag)) ∧
    (∃ source, records[checkpoint.sourceGeneration.toNat]? = some source ∧
      checkpoint.sourceHeadDigest = source.digest X ∧ checkpoint.lastIncludedRecordDigest = source.digest X) ∧
    ∃ restored state, F.restoreCheckpoint checkpoint.transitionSchema checkpoint.stateBytes = some restored ∧
      applyRecords F restored (records.drop (checkpoint.sourceGeneration.toNat + 1)) = .ok state ∧
      F.canonicalState state = some canonicalState

/-- The same state, canonical state and record references. -/
structure FoldOutcome.Same (a b : FoldOutcome σ) : Prop where
  state : a.state = b.state
  canonicalState : a.canonicalState = b.canonicalState
  records : a.records = b.records

/-- The byte strings a fold with projection `p` may compare by digest. -/
def InPlay (p : FoldProjection) (b : Bytes) : Prop :=
  (∃ q ∈ p.records, q.bytes = b) ∨ ∃ d etag, v (.get (l.objectKey d)) = .ok (b, etag)

variable {X l F v} {head : CanonicalHead} {records : List CanonicalRecord}

theorem loadRecord_answer {d : RecordDigest} {r : CanonicalRecord}
    (h : (loadRecord X l d).run.answer v = some (.ok r)) :
    ∃ etag, v (.get (l.objectKey d)) = .ok (r.canonicalBytes X, etag) ∧ r.lineage = l ∧ r.digest X = d := by
  rw [loadRecord, download, Op.run_ask_bind, Prog.answer_call] at h
  split at h
  · next bytes etag hv =>
    cases hr : CanonicalRecord.fromBytes X l d bytes with
    | error e =>
      rw [hr] at h
      cases h
    | ok r' =>
      rw [hr] at h
      cases h
      obtain ⟨rfl, hl, hd⟩ := CanonicalRecord.canonicalBytes_of_fromBytes hr
      exact ⟨etag, hv, hl, hd⟩
  · cases h
  · cases h

/-- An authoritative history is a walk over stored records. -/
theorem Authoritative.walked (h : Authoritative X l v head records) :
    Walked X l head.generation.toNat head.recordDigest [] records.reverse ∧
      ∀ r ∈ records, ∃ etag, v (.get (l.objectKey (r.digest X))) = .ok (r.canonicalBytes X, etag) := by
  have hl := h.2
  rw [loadHistory, map_eq_pure_bind] at hl
  obtain ⟨ws, hws, hp⟩ := Op.answer_bind_ok.1 hl
  cases hp
  obtain ⟨hw, hloads, -⟩ := ((Results.reading v).gives_walkHistory fun d r hr =>
    (loadRecord_answer hr).choose_spec.2.1).1 hws
  refine ⟨by rwa [List.reverse_reverse], fun r hr => ?_⟩
  obtain ⟨etag, he, -, -⟩ := loadRecord_answer (hloads r (List.mem_reverse.1 hr))
  exact ⟨etag, he⟩

theorem Authoritative.length (h : Authoritative X l v head records) : records.length = head.generation.toNat + 1 := by
  rw [← List.length_reverse, h.walked.1.length]

theorem Authoritative.unique {head' : CanonicalHead} {records' : List CanonicalRecord}
    (h : Authoritative X l v head records) (h' : Authoritative X l v head' records') : head = head' ∧ records = records' := by
  obtain ⟨⟨e, he⟩, hr⟩ := h
  obtain ⟨⟨e', he'⟩, hr'⟩ := h'
  rw [he] at he'
  cases he'
  rw [hr] at hr'
  cases hr'
  exact ⟨rfl, rfl⟩

theorem hexEncode_injective : Function.Injective hexEncode := fun a b h => by
  simpa using congrArg hexDecode h

/-- An accepted projection copies the authoritative history. -/
theorem Authoritative.projected {p : FoldProjection} {rs : List CanonicalRecord} (h : Authoritative X l v head records)
    (hp : loadProjectedHistory X l p head = .ok rs) (hsha : Set.InjOn X.sha256 (InPlay l v p)) : rs = records := by
  unfold loadProjectedHistory at hp
  split at hp
  · cases hp
  next hm =>
  simp only [ProjectionSource.matches, Bool.not_eq_false, Bool.and_eq_true, decide_eq_true_eq] at hm
  split at hp
  · cases hp
  next rs' hrs =>
  split at hp
  · cases hp
  split at hp
  · cases hp
  cases hp
  obtain ⟨-, -, hw, hcopy⟩ := FoldProjection.recordsForSource_eq_ok.1 hrs
  obtain ⟨hw', hstored⟩ := h.walked
  rw [hm.1.2, hm.2] at hw
  refine List.reverse_injective (hw.unique hw' fun r hr r' hr' hd => ?_)
  obtain ⟨etag, he⟩ := hstored r' (List.mem_reverse.1 hr')
  have hbytes : r.canonicalBytes X = r'.canonicalBytes X := by
    refine hsha (.inl ⟨r.projected X, ?_, rfl⟩) (.inr ⟨_, etag, he⟩) (hexEncode_injective (congrArg RecordDigest.hex hd))
    rw [hcopy]
    exact List.mem_map_of_mem (List.mem_reverse.1 hr)
  have hread := CanonicalRecord.fromBytes_canonicalBytes (X := X) r
  rw [hw.lineage hr, hd, hbytes, ← hw'.lineage hr', CanonicalRecord.fromBytes_canonicalBytes] at hread
  exact (Except.ok.inj hread).symm

/-! ### Checkpoints -/

/-- Bytes that are no checkpoint are rejected, not a failure of the fold. -/
theorem rejected_of_fromBytes {c : RecordDigest} {bytes : Bytes} {e : KernelError}
    (h : CanonicalCheckpoint.fromBytes X l c bytes = .error e) : (CheckpointRejection.fromError e).isSome := by
  unfold CanonicalCheckpoint.fromBytes at h
  split at h
  · cases h
    rfl
  split at h
  · cases h
    rfl
  unfold CanonicalCheckpoint.ofWire at h
  dsimp only at h
  split at h
  · cases h
    rfl
  split at h
  · cases h
    rfl
  split at h
  · cases h
    rfl
  split at h
  · cases h
    rfl
  split at h
  · cases h
    rfl
  split at h
  · next hnew =>
    cases h
    unfold CanonicalCheckpoint.new at hnew
    split at hnew <;> cases hnew
    rfl
  split at h <;> cases h
  rfl

theorem rejected_of_basis {checkpoint : CanonicalCheckpoint} {e : KernelError}
    (h : validateCheckpointBasis X l checkpoint head records = .error e) : (CheckpointRejection.fromError e).isSome := by
  unfold validateCheckpointBasis at h
  split at h
  · cases h
    rfl
  split at h
  · cases h
    rfl
  split at h
  · cases h
    rfl
  split at h <;> cases h
  rfl

/-- The basis of a checkpoint is the record at its source generation. -/
theorem validateCheckpointBasis_eq_ok {checkpoint : CanonicalCheckpoint} (hl : checkpoint.lineage = l)
    (hlen : records.length = head.generation.toNat + 1) : validateCheckpointBasis X l checkpoint head records = .ok () ↔
      ∃ source, records[checkpoint.sourceGeneration.toNat]? = some source ∧
        checkpoint.sourceHeadDigest = source.digest X ∧ checkpoint.lastIncludedRecordDigest = source.digest X := by
  have hid : l.sameIdentity checkpoint.lineage ≠ false := by simp [KernelLineage.sameIdentity, hl]
  unfold validateCheckpointBasis
  rw [if_neg hid]
  constructor
  · intro h
    split at h
    · cases h
    split at h
    · cases h
    next source hs =>
    split at h
    · cases h
    next hd =>
    simp only [ne_eq, not_or, not_not] at hd
    exact ⟨source, hs, hd⟩
  · rintro ⟨source, hs, hd, hd'⟩
    have hlt : checkpoint.sourceGeneration.toNat < records.length := (List.getElem?_eq_some_iff.1 hs).1
    have hle : ¬ checkpoint.sourceGeneration > head.generation := by
      rw [gt_iff_lt, UInt64.lt_iff_toNat_lt]
      omega
    rw [if_neg hle, hs]
    exact if_neg (by simp [hd, hd'])

theorem recordsAfter_eq {checkpoint : CanonicalCheckpoint} (hlen : records.length = head.generation.toNat + 1) :
    recordsAfter checkpoint records = records.drop (checkpoint.sourceGeneration.toNat + 1) := by
  unfold recordsAfter
  split
  · next start hs => rw [toNat_of_checkedSucc hs]
  · next hs =>
    -- nothing is behind the last generation there is
    unfold checkedSucc at hs
    split at hs
    · cases hs
    have hmax := head.generation.toNat_lt
    rw [List.drop_length, List.drop_eq_nil_of_le (by omega)]

theorem replayCheckpoint_eq_nil {c : RecordDigest} {checkpoint : CanonicalCheckpoint} {canonicalState : Bytes} :
    replayCheckpoint X l F c checkpoint records canonicalState = [] ↔
      ∃ restored state, F.restoreCheckpoint checkpoint.transitionSchema checkpoint.stateBytes = some restored ∧
        applyRecords F restored (recordsAfter checkpoint records) = .ok state ∧
        F.canonicalState state = some canonicalState := by
  unfold replayCheckpoint
  cases hr : F.restoreCheckpoint checkpoint.transitionSchema checkpoint.stateBytes with
  | none => simp
  | some restored =>
    cases ha : applyRecords F restored (recordsAfter checkpoint records) with
    | error record => simp [ha]
    | ok state =>
      cases hc : F.canonicalState state with
      | none => simp [ha, hc]
      | some bytes =>
        by_cases hb : bytes = canonicalState
        · simp [ha, hc, hb]
        · simp [ha, hc, hb]

/-- What `check_checkpoint` ends with: rejections, none exactly for a checkpoint that agrees, or a failed read. -/
theorem checkCheckpoint_answer (hlen : records.length = head.generation.toNat + 1) (c : RecordDigest)
    (canonicalState : Bytes) :
    (∃ rejections, (checkCheckpoint X l F c head records canonicalState).run.answer v = some (.ok rejections) ∧
      (rejections = [] ↔ CheckpointAgrees X l F v c records canonicalState)) ∨
    (∃ e, v (.get (l.checkpointKey c)) = .error e ∧ e ≠ .notFound) ∧ ∃ operation,
      (checkCheckpoint X l F c head records canonicalState).run.answer v = some (.error (.stateUnavailable operation)) := by
  rw [checkCheckpoint, Op.run_attempt_bind, Prog.answer_bind, loadCheckpoint, download, Op.run_ask_bind, Prog.answer_call]
  cases hv : v (.get (l.checkpointKey c)) with
  | error e =>
    cases e with
    | notFound =>
      refine .inl ⟨_, rfl, nofun, ?_⟩
      rintro ⟨checkpoint, -, -, ⟨etag, he⟩, -⟩
      rw [hv] at he
      cases he
    | preconditionFailed => exact .inr ⟨⟨_, rfl, nofun⟩, _, rfl⟩
    | failed => exact .inr ⟨⟨_, rfl, nofun⟩, _, rfl⟩
  | ok a =>
    obtain ⟨bytes, etag⟩ := a
    refine .inl ?_
    dsimp only
    cases hr : CanonicalCheckpoint.fromBytes X l c bytes with
    | error e =>
      obtain ⟨rejection, hrej⟩ := Option.isSome_iff_exists.1 (rejected_of_fromBytes hr)
      refine ⟨[rejection], ?_, nofun, ?_⟩
      · simp [check, hrej]
      · rintro ⟨checkpoint, hl, hd, ⟨etag', he⟩, -⟩
        rw [hv] at he
        cases he
        have hread := CanonicalCheckpoint.fromBytes_canonicalBytes (X := X) checkpoint
        rw [hl, hd, hr] at hread
        cases hread
    | ok checkpoint =>
      obtain ⟨rfl, hl, hd⟩ := CanonicalCheckpoint.canonicalBytes_of_fromBytes hr
      -- the object of this digest is one checkpoint
      have hagrees : CheckpointAgrees X l F v c records canonicalState ↔
          validateCheckpointBasis X l checkpoint head records = .ok () ∧
            replayCheckpoint X l F c checkpoint records canonicalState = [] := by
        rw [validateCheckpointBasis_eq_ok hl hlen, replayCheckpoint_eq_nil, recordsAfter_eq hlen]
        constructor
        · rintro ⟨checkpoint', hl', hd', ⟨etag', he⟩, hs, hrep⟩
          rw [hv] at he
          have hbytes := (Prod.mk.inj (Except.ok.inj he)).1
          have hread := CanonicalCheckpoint.fromBytes_canonicalBytes (X := X) checkpoint'
          rw [hl', hd', ← hbytes, hr] at hread
          cases hread
          exact ⟨hs, hrep⟩
        · rintro ⟨hs, hrep⟩
          exact ⟨checkpoint, hl, hd, ⟨etag, hv⟩, hs, hrep⟩
      cases hb : validateCheckpointBasis X l checkpoint head records with
      | error e =>
        obtain ⟨rejection, hrej⟩ := Option.isSome_iff_exists.1 (rejected_of_basis hb)
        refine ⟨[rejection], ?_, nofun, fun h => ?_⟩
        · simp [check, hb, hrej]
        · rw [hagrees, hb] at h
          cases h.1
      | ok u =>
        refine ⟨replayCheckpoint X l F c checkpoint records canonicalState, ?_, ?_⟩
        · simp [check, hb]
        · rw [hagrees, hb]
          exact ⟨fun h => ⟨rfl, h⟩, fun h => h.2⟩

/-! ### One fold and another -/

/-- What a fold that succeeded read and computed. -/
theorem fold_answer_ok {out : FoldOutcome σ} (h : (fold X l F none).run.answer v = some (.ok out)) :
    ∃ head records, Authoritative X l v head records ∧ (foldRecords X l F head records none .absent).run.answer v = some (.ok out) := by
  obtain ⟨⟨head, etag⟩, hhead, h⟩ := Op.answer_bind_ok.1 h
  obtain ⟨records, hrec, h⟩ := Op.answer_bind_ok.1 h
  exact ⟨head, records, ⟨⟨etag, hhead⟩, hrec⟩, h⟩

theorem check_answer_ok {α : Type} {x : Except KernelError α} {a : α} :
    (check x).run.answer v = some (.ok a) ↔ x = .ok a := by
  cases x with
  | ok b => simp [check]
  | error e => simp [check]

/-- The records decide a fold without a checkpoint, up to its disposition. -/
theorem foldRecords_answer_ok {out : FoldOutcome σ} {disposition : ProjectionDisposition}
    (h : (foldRecords X l F head records none disposition).run.answer v = some (.ok out)) :
    validateTransitions X F records = .ok () ∧ foldFull X l F records = .ok (out.state, out.canonicalState) ∧
      out.records = references X records := by
  obtain ⟨u, hval, h⟩ := Op.answer_bind_ok.1 h
  obtain ⟨⟨state, canonicalState⟩, hfull, h⟩ := Op.answer_bind_ok.1 h
  obtain ⟨rejections, -, h⟩ := Op.answer_bind_ok.1 h
  cases h
  exact ⟨check_answer_ok.1 hval, check_answer_ok.1 hfull, rfl⟩

/-- A fold of records that fold ends as its check of the checkpoint does. -/
theorem foldRecords_answer {state : σ} {canonicalState : Bytes} (hval : validateTransitions X F records = .ok ())
    (hfull : foldFull X l F records = .ok (state, canonicalState)) (ck : Option RecordDigest)
    (disposition : ProjectionDisposition) :
    (foldRecords X l F head records ck disposition).run.answer v =
      (match ck with
        | some c => (checkCheckpoint X l F c head records canonicalState).run.answer v
        | none => some (.ok [])).map (Except.map fun rejections =>
          ⟨state, canonicalState, references X records, rejections, disposition⟩) := by
  rw [foldRecords, hval, hfull]
  simp only [check, pure_bind]
  cases ck with
  | none => rfl
  | some c =>
    rw [ExceptT.run_bind, Prog.answer_bind]
    dsimp only
    cases (checkCheckpoint X l F c head records canonicalState).run.answer v with
    | none => rfl
    | some r => cases r <;> rfl

/-- Projections and checkpoints never change a fold. -/
theorem fold_unchanged {out : FoldOutcome σ} (h : (fold X l F none).run.answer v = some (.ok out)) :
    (∀ p : FoldProjection, Set.InjOn X.sha256 (InPlay l v p) →
      ∃ out', (foldWithProjection X l F (some p)).run.answer v = some (.ok out') ∧ out'.Same out) ∧
    ∀ c, ((∃ e, v (.get (l.checkpointKey c)) = .error e ∧ e ≠ .notFound) ∧
        ∃ operation, (fold X l F (some c)).run.answer v = some (.error (.stateUnavailable operation))) ∨
      ∃ out' head records, (fold X l F (some c)).run.answer v = some (.ok out') ∧ out'.Same out ∧
        Authoritative X l v head records ∧
        (out'.checkpointRejections = [] ↔ CheckpointAgrees X l F v c records out.canonicalState) := by
  obtain ⟨head, records, ha, hrecords⟩ := fold_answer_ok h
  obtain ⟨⟨etag, hhead⟩, hhist⟩ := id ha
  obtain ⟨hval, hfull, hrefs⟩ := foldRecords_answer_ok hrecords
  constructor
  · intro p hsha
    have hrun : ∀ {rs} disposition, rs = records → ∃ out',
        (foldRecords X l F head rs none disposition).run.answer v = some (.ok out') ∧ out'.Same out := by
      rintro rs disposition rfl
      exact ⟨_, foldRecords_answer hval hfull none disposition, rfl, rfl, hrefs.symm⟩
    cases hp : loadProjectedHistory X l p head with
    | ok rs =>
      obtain ⟨out', hout, hsame⟩ := hrun .used (ha.projected hp hsha)
      refine ⟨out', Op.answer_bind_ok.2 ⟨_, hhead, ?_⟩, hsame⟩
      dsimp only
      rw [hp]
      exact hout
    | error e =>
      obtain ⟨out', hout, hsame⟩ := hrun .discarded rfl
      refine ⟨out', Op.answer_bind_ok.2 ⟨_, hhead, ?_⟩, hsame⟩
      dsimp only
      rw [hp]
      exact Op.answer_bind_ok.2 ⟨records, hhist, hout⟩
  · intro c
    -- what the fold does once it has the head and the history
    have hfold : (fold X l F (some c)).run.answer v =
        (foldRecords X l F head records (some c) .absent).run.answer v := by
      rw [fold, ExceptT.run_bind, Prog.answer_bind, hhead]
      show (loadHistory X l head >>= fun records => foldRecords X l F head records (some c) .absent).run.answer v = _
      rw [ExceptT.run_bind, Prog.answer_bind, hhist]
      rfl
    rw [hfold, foldRecords_answer hval hfull]
    rcases checkCheckpoint_answer ha.length c out.canonicalState with ⟨rejections, hck, hiff⟩ | ⟨hread, operation, hck⟩
    · dsimp only
      rw [hck]
      exact .inr ⟨_, head, records, rfl, ⟨rfl, rfl, hrefs.symm⟩, ha, hiff⟩
    · dsimp only
      rw [hck]
      exact .inl ⟨hread, operation, rfl⟩

/-! ### A fold of two records -/

/-- The fold that counts records. -/
def countFold : LineageFold ℕ where
  validateTransition _ := some ()
  initialState := 0
  apply n _ := some (n + 1)
  canonicalState n := some [UInt8.ofNat n]
  restoreCheckpoint _ bytes := bytes.head?.map UInt8.toNat

/-- What it says of two records. -/
def nextOutcome : FoldOutcome ℕ := ⟨2, [2], references Serde.crates [letterGenesis, letterSuccessor], [], .absent⟩

/-- A checkpoint of the first record. -/
def letterCheckpoint : CanonicalCheckpoint :=
  ⟨letterLineage, "s".toList, 0, letterGenesis.digest Serde.crates, letterGenesis.digest Serde.crates, [1], by decide⟩

/-- A copy of it. -/
def letterProjection : FoldProjection := .fromAuthoritative Serde.crates letterHead.head [letterGenesis]

/-- The bucket once the first record was appended and the checkpoint published. -/
def foundedStore : Store :=
  ((appendGenesis Serde.crates letterLineage letterGenesis >>= fun _ =>
    publishCheckpoint Serde.crates letterLineage letterCheckpoint).run.eval (Store.serve contentTag) ∅).2

/-- The bucket once the second record was appended. -/
def advancedStore : Store :=
  ((appendSuccessor Serde.crates letterLineage letterSuccessor letterHead).run.eval (Store.serve contentTag) foundedStore).2

/-- The contents of its objects. -/
def advancedBytes : List Bytes := advancedStore.entries.map (·.2.data)

set_option maxRecDepth 10000 in
theorem advancedStore_folds :
    (rebuildProjection Serde.crates letterLineage).run.answer foundedStore.answers = some (.ok letterProjection) ∧
    (fold Serde.crates letterLineage countFold none).run.answer advancedStore.answers = some (.ok nextOutcome) ∧
    (fold Serde.crates letterLineage countFold (some (letterCheckpoint.digest Serde.crates))).run.answer advancedStore.answers =
      some (.ok nextOutcome) ∧
    letterGenesis.canonicalBytes Serde.crates ∈ advancedBytes ∧ (advancedBytes.map Sha256.digest).Nodup := by
  decide +kernel

theorem mem_of_answers {s : Store} {path : Str} {b : Bytes} {etag : Option Etag} (h : s.answers (.get path) = .ok (b, etag)) :
    b ∈ s.entries.map (·.2.data) := by
  change s.found _ = _ at h
  unfold Store.found at h
  split at h
  · next o ho =>
    cases h
    exact List.mem_map.2 ⟨⟨_, o⟩, AList.mem_lookup_iff.1 ho, rfl⟩
  · cases h

/-- Two records are folded as they are alone beside a copy made before the second, and beside a checkpoint of the first, which
agrees with them. -/
theorem fold_unchanged_advancedStore : (∃ out', (foldWithProjection Serde.crates letterLineage countFold
      (some letterProjection)).run.answer advancedStore.answers = some (.ok out') ∧ out'.Same nextOutcome) ∧
    ∃ head records, Authoritative Serde.crates letterLineage advancedStore.answers head records ∧
      CheckpointAgrees Serde.crates letterLineage countFold advancedStore.answers (letterCheckpoint.digest Serde.crates) records
        nextOutcome.canonicalState := by
  obtain ⟨-, hfold, hcheckpoint, hmem, hnodup⟩ := advancedStore_folds
  obtain ⟨hprojections, hcheckpoints⟩ := fold_unchanged hfold
  constructor
  · refine hprojections letterProjection ?_
    have hplay : ∀ b, InPlay letterLineage advancedStore.answers letterProjection b → b ∈ advancedBytes := by
      rintro b (⟨q, hq, rfl⟩ | ⟨d, etag, he⟩)
      · rw [List.mem_singleton.1 hq]
        exact hmem
      · exact mem_of_answers he
    exact fun a ha b hb h => List.inj_on_of_nodup_map hnodup (hplay a ha) (hplay b hb) h
  · rcases hcheckpoints (letterCheckpoint.digest Serde.crates) with ⟨-, operation, hun⟩ | ⟨out', head, records, hout, -, ha, hagrees⟩
    · cases hcheckpoint.symm.trans hun
    · cases hcheckpoint.symm.trans hout
      exact ⟨head, records, ha, hagrees.1 rfl⟩

end YeetzS3.Lineage
