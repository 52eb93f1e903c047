import YeetzS3.Counter
import YeetzS3.Lineage.Format

/-!
# The operations of `StateKernel`

Publishing records, creating and advancing the head, destroying the lineage, and the reads: the programs of
`state_kernel.rs` and `terminal_read.rs`, request by request.
-/

namespace YeetzS3.Lineage

open Conc

/-- A program of a lineage. -/
abbrev KernelOp := StoreOp KernelError

/-- An operation that cannot be done. -/
def unavailable {α : Type} (operation : String) : KernelOp α := throw (.stateUnavailable operation)

/-- A pure check. -/
def check {α : Type} : Except KernelError α → KernelOp α
  | .ok a => pure a
  | .error e => throw e

/-- The errors of the lineage's counter. -/
def counterErrors : CounterErrors KernelError where
  read := .stateUnavailable "lineage incarnation counter read"
  readMalformed := .stateUnavailable "lineage incarnation counter malformed"
  bumpNoEtag := .stateUnavailable "lineage incarnation counter read (no etag)"
  bumpMalformed := .stateUnavailable "lineage incarnation counter malformed"
  bumpExhausted := .stateUnavailable "lineage incarnation counter exhausted"
  bumpPut := .stateUnavailable "lineage incarnation counter bump"
  bumpCreate := .stateUnavailable "lineage incarnation counter create"
  bumpRead := .stateUnavailable "lineage incarnation counter read"
  bumpBudget := .stateUnavailable "lineage incarnation counter bump budget exhausted"

/-! ### The backward walk -/

section
variable {m : Type → Type} [Monad m] [MonadExceptOf KernelError m] (X : Crates) (l : KernelLineage)

/-- What a walk checks of the record it loaded for digest `next` at generation `n`. `headPrior` is the head's own
prior position, to be compared with the first record. -/
def checkRecord (headPrior : Option (Option RecordPosition)) (n : ℕ) (next : RecordDigest) (record : CanonicalRecord) :
    Except KernelError Unit :=
  if record.digest X ≠ next ∨ record.sequence.toNat ≠ n then
    .error (.stateHistoryIncomplete (record.reference (some next)))
  else if headPrior.any (· ≠ record.prior) then
    .error (.stateHistoryIncomplete (record.reference (some (record.digest X))))
  else .ok ()

/-- One turn of the walk: the record of digest `next` at generation `n`, loaded and checked, and what is done with
it. -/
def walkRecord (load : RecordDigest → m CanonicalRecord) (n : ℕ) (headPrior : Option (Option RecordPosition))
    (next : RecordDigest) (seen : List RecordDigest) (rest : CanonicalRecord → m (List CanonicalRecord)) :
    m (List CanonicalRecord) :=
  if next ∈ seen then throw (.stateHistoryIncomplete (.forDigest l next))
  else do
    let record ← load next
    match checkRecord X headPrior n next record with
    | .error e => throw e
    | .ok () => rest record

/-- The walk does not go on behind this record. -/
def walkBroken (record : CanonicalRecord) : m (List CanonicalRecord) :=
  throw (.stateHistoryIncomplete (record.reference (some (record.digest X))))

/-- The loop of `load_history` and `records_for_source`: from the record of digest `next` at generation `n` back to
the genesis. The records come newest first. -/
def walkHistory (load : RecordDigest → m CanonicalRecord) :
    (n : ℕ) → Option (Option RecordPosition) → RecordDigest → List RecordDigest → m (List CanonicalRecord)
  | 0, headPrior, next, seen => walkRecord X l load 0 headPrior next seen fun record =>
    match record.prior with
    | none => pure [record]
    | some _ => walkBroken X record
  | n + 1, headPrior, next, seen => walkRecord X l load (n + 1) headPrior next seen fun record =>
    match record.prior with
    | none => walkBroken X record
    | some prior =>
      if prior.generation.toNat = n then (record :: ·) <$> walkHistory load n none prior.digest (next :: seen)
      else walkBroken X record

end

variable (X : Crates) (l : KernelLineage)

/-! ### Reads -/

/-- `load_head`. -/
def loadHead : KernelOp (CanonicalHead × Option Etag) := do
  match ← download l.headKey with
  | .ok (data, etag) =>
    match CanonicalHead.fromBytes X l data with
    | .ok head => pure (head, etag)
    | .error e => throw e
  | .error .notFound => throw (.stateHistoryIncomplete (.forLineage l))
  | .error _ => unavailable "head read"

/-- The etag a read must have reported. -/
def needEtag (operation : String) : Option Etag → KernelOp Etag
  | some etag => pure etag
  | none => unavailable operation

/-- `read_head`. -/
def readHead : KernelOp HeadRead := do
  let loaded ← loadHead X l
  let etag ← needEtag "head read did not return an ETag" loaded.2
  pure ⟨loaded.1, etag⟩

/-- `head_conflict`: the error it builds. -/
def headConflict : KernelOp KernelError := do
  match ← Op.attempt (loadHead X l) with
  | .ok loaded => pure (.lineageHeadConflict (some loaded.1.reference))
  | .error _ => pure (.lineageHeadConflict none)

/-- `return Err(self.head_conflict().await)`. -/
def throwConflict {α : Type} : KernelOp α := do
  throw (← headConflict X l)

/-- `load_record`. -/
def loadRecord (digest : RecordDigest) : KernelOp CanonicalRecord := do
  match ← download (l.objectKey digest) with
  | .ok (bytes, _) => check (CanonicalRecord.fromBytes X l digest bytes)
  | .error .notFound => throw (.stateHistoryIncomplete (.forDigest l digest))
  | .error _ => unavailable "record read"

/-- `load_history`, oldest record first. -/
def loadHistory (head : CanonicalHead) : KernelOp (List CanonicalRecord) :=
  List.reverse <$> walkHistory X l (loadRecord X l) head.generation.toNat (some head.prior) head.recordDigest []

/-- `LineageHeadState`. -/
inductive LineageHeadState where
  | absent
  | destroyed (tombstone : Tombstone)
  | present (head : HeadRead)
deriving DecidableEq

/-- `load_tombstone`. -/
def loadTombstone : KernelOp (Option Tombstone) := do
  match ← download l.tombstoneKey with
  | .ok (bytes, _) =>
    match Tombstone.decode X.toOutside bytes with
    | .ok tombstone => pure (some tombstone)
    | .error _ => throw (.tombstoneCorrupt (.forLineage l))
  | .error .notFound => pure none
  | .error _ => unavailable "tombstone read"

/-- `read_head_state`. -/
def readHeadState : KernelOp LineageHeadState := do
  match ← Op.attempt (loadHead X l) with
  | .ok loaded =>
    let etag ← needEtag "head state read did not return an ETag" loaded.2
    pure (.present ⟨loaded.1, etag⟩)
  | .error (.stateHistoryIncomplete _) =>
    match ← loadTombstone X l with
    | some tombstone => pure (.destroyed tombstone)
    | none => pure .absent
  | .error e => throw e

/-- `current_incarnation`. -/
def currentIncarnation : KernelOp UInt64 := readCounter counterErrors l.incarnationKey

/-! ### Publishing -/

/-- `ensure_record_lineage`. -/
def ensureRecordLineage (record : CanonicalRecord) : Except KernelError Unit :=
  if l.sameIdentity record.lineage then .ok () else .error (.stateRecordMalformed (record.reference none))

/-- `publish_immutable`: what is there afterwards is read back. -/
def publishImmutable (key : Str) (bytes : Bytes) (reference : SafeReference) : KernelOp Unit := do
  match ← uploadConditional key bytes none with
  | .ok _ | .error .preconditionFailed =>
    match ← download key with
    | .ok (existing, _) =>
      if existing = bytes ∧ RecordDigest.of X existing = RecordDigest.of X bytes then pure ()
      else throw (.digestMismatch reference)
    | .error _ => unavailable "immutable readback after conditional create"
  | .error _ => unavailable "immutable conditional create"

/-- `publish_record`. -/
def publishRecord (record : CanonicalRecord) : KernelOp RecordDigest := do
  check (ensureRecordLineage l record)
  publishImmutable X (l.objectKey (record.digest X)) (record.canonicalBytes X) (record.reference (some (record.digest X)))
  pure (record.digest X)

/-- `publish_checkpoint`. -/
def publishCheckpoint (checkpoint : CanonicalCheckpoint) : KernelOp RecordDigest :=
  if l.sameIdentity checkpoint.lineage then do
    publishImmutable X (l.checkpointKey (checkpoint.digest X)) (checkpoint.canonicalBytes X)
      (.forDigest l (checkpoint.digest X))
    pure (checkpoint.digest X)
  else throw (.stateRecordMalformed (.forLineage l))

/-- The records of a batch, one after another. -/
def publishRecords : List CanonicalRecord → KernelOp Unit
  | [] => pure ()
  | record :: records => do
    let _ ← publishRecord X l record
    publishRecords records

/-- `validate_record_batch`: the position the batch leads to. -/
def validateRecordBatch : List CanonicalRecord → UInt64 → Option RecordPosition → Except KernelError RecordPosition
  | [], _, prior =>
    match prior with
    | some position => .ok position
    | none => .error (.stateRecordMalformed (.forLineage l))
  | record :: records, generation, prior =>
    match ensureRecordLineage l record with
    | .error e => .error e
    | .ok () =>
      if record.sequence ≠ generation ∨ record.prior ≠ prior then .error (.stateRecordMalformed (record.reference none))
      else match checkedSucc generation with
        | none => .error (.stateRecordMalformed (record.reference none))
        | some next => validateRecordBatch records next (some ⟨generation, record.digest X⟩)

/-- `create_head`, with `tries` attempts left. -/
def createHead (generation : UInt64) (recordDigest : RecordDigest) (prior : Option RecordPosition) : ℕ → KernelOp HeadRead
  | 0 => unavailable "head create (incarnation contention)"
  | tries + 1 => do
    let incarnation ← currentIncarnation l
    let head : CanonicalHead := ⟨l, generation, incarnation, recordDigest, prior⟩
    match ← uploadConditional l.headKey (head.canonicalBytes X) none with
    | .ok none => unavailable "head create did not return an ETag"
    | .ok (some etag) =>
      let now ← currentIncarnation l
      if now = incarnation then pure ⟨head, etag⟩
      else
        -- the etag of the put is the ownership token of the stale bytes
        match ← deleteConditional l.headKey etag with
        | .ok () | .error .notFound => createHead generation recordDigest prior tries
        | .error .preconditionFailed => throwConflict X l
        | .error .failed => unavailable "head create (stale-era conditional eviction)"
    | .error .preconditionFailed => throwConflict X l
    | .error _ => unavailable "head conditional create"

/-- `append_genesis`. -/
def appendGenesis (record : CanonicalRecord) : KernelOp HeadRead := do
  check (ensureRecordLineage l record)
  if record.sequence ≠ 0 ∨ record.prior ≠ none then throw (.stateRecordMalformed (record.reference none))
  else
    let recordDigest ← publishRecord X l record
    createHead X l 0 recordDigest none 8

/-- `append_genesis_batch`. -/
def appendGenesisBatch (records : List CanonicalRecord) : KernelOp HeadRead := do
  let terminal ← check (validateRecordBatch X l records 0 none)
  publishRecords X l records
  createHead X l terminal.generation terminal.digest (records.getLast?.bind (·.prior)) 8

/-- `ensure_open_era`. -/
def ensureOpenEra (head : CanonicalHead) : KernelOp Unit := do
  if (← currentIncarnation l) = head.incarnation then pure () else throwConflict X l

/-- `replace_head`. -/
def replaceHead (head : CanonicalHead) (expectedEtag : Etag) : KernelOp HeadRead := do
  match ← uploadConditional l.headKey (head.canonicalBytes X) (some expectedEtag) with
  | .ok (some etag) => pure ⟨head, etag⟩
  | .ok none => unavailable "head update did not return an ETag"
  | .error .preconditionFailed => throwConflict X l
  | .error _ => unavailable "head conditional update"

/-- `retire_closed_era_publication`. -/
def retireClosedEraPublication (published : HeadRead) : KernelOp Unit := do
  if (← currentIncarnation l) = published.head.incarnation then pure ()
  else match ← deleteConditional l.headKey published.etag with
    | .error .failed => unavailable "head update (closed-era conditional eviction)"
    | .ok () | .error _ => throwConflict X l

/-- The current head, if it is the one the caller expects. -/
def loadExpected (expected : HeadRead) : KernelOp Unit := do
  let current ← loadHead X l
  let currentEtag ← needEtag "head read did not return an ETag" current.2
  if current.1.sameIdentity expected.head = false ∨ currentEtag ≠ expected.etag then
    throw (.lineageHeadConflict (some current.1.reference))
  else pure ()

/-- The end of a successor append: the head is replaced, and evicted again if its lifetime was closed. -/
def advanceHead (head : CanonicalHead) (expectedEtag : Etag) : KernelOp HeadRead := do
  let advanced ← replaceHead X l head expectedEtag
  retireClosedEraPublication X l advanced
  pure advanced

/-- `append_successor`. -/
def appendSuccessor (record : CanonicalRecord) (expected : HeadRead) : KernelOp HeadRead :=
  if l.policy = .genesisOnly then throw (.successorNotAllowed (.forLineage l))
  else do
    check (ensureRecordLineage l record)
    ensureOpenEra X l expected.head
    if l.sameIdentity expected.head.lineage = false then throwConflict X l
    else
      loadExpected X l expected
      match checkedSucc expected.head.generation with
      | none => throw (.stateRecordMalformed expected.head.reference)
      | some nextGeneration =>
        if record.sequence ≠ nextGeneration ∨ record.prior ≠ some expected.head.position then
          throw (.stateRecordMalformed (record.reference none))
        else
          let recordDigest ← publishRecord X l record
          advanceHead X l ⟨l, nextGeneration, expected.head.incarnation, recordDigest, some expected.head.position⟩
            expected.etag

/-- `append_successor_batch`. An empty batch passes `validate_record_batch` with the expected position. -/
def appendSuccessorBatch (records : List CanonicalRecord) (expected : HeadRead) : KernelOp HeadRead :=
  if l.policy = .genesisOnly then throw (.successorNotAllowed (.forLineage l))
  else if l.sameIdentity expected.head.lineage = false then throwConflict X l
  else do
    ensureOpenEra X l expected.head
    loadExpected X l expected
    match checkedSucc expected.head.generation with
    | none => throw (.stateRecordMalformed expected.head.reference)
    | some startGeneration =>
      let terminal ← check (validateRecordBatch X l records startGeneration (some expected.head.position))
      publishRecords X l records
      advanceHead X l ⟨l, terminal.generation, expected.head.incarnation, terminal.digest,
        records.getLast?.bind (·.prior)⟩ expected.etag

/-! ### Destruction -/

/-- `destroy`, at clock reading `ts`. -/
def destroy (cause actor : Str) (ts : UInt64) : KernelOp Unit := do
  match ← Op.attempt (loadHead X l) with
  | .error (.stateHistoryIncomplete _) => pure ()
  | .error e => throw e
  | .ok loaded =>
    let etag ← needEtag "destroy head load did not return an ETag" loaded.2
    let tombstone := Tombstone.mint loaded.1.incarnation loaded.1.generation cause actor ts
    match ← uploadConditional l.tombstoneKey (X.tombstoneJson tombstone) none with
    | .ok _ | .error .preconditionFailed =>
      let _ ← bumpCounter counterErrors l.incarnationKey 8
      match ← deleteConditional l.headKey etag with
      | .ok () | .error .notFound => pure ()
      | .error .preconditionFailed => throwConflict X l
      | .error .failed => unavailable "head deletion"
    | .error _ => unavailable "tombstone conditional create"

end YeetzS3.Lineage
