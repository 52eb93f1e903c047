import YeetzS3.Streams.Reads

/-!
# Conditional writes

`conditional.rs`: the creation of a stream under a caller's name, and the append at exactly the successor of a named
predecessor. Every failure of the latter carries what the call can prove about its one create.
-/

namespace YeetzS3.Streams

open Conc
open Keyspace (AtomicKeyspace byteLen get create)

/-! ### Outcomes -/

/-- `CreateStreamOutcome`. -/
inductive CreateStreamOutcome where
  | created
  | existing
deriving DecidableEq

/-- `CreateStreamError`. -/
inductive CreateStreamError where
  | storage (err : StreamsError)
  | configurationConflict (stream : StreamId)
deriving DecidableEq

/-- `AppendExpectedEffect`. -/
inductive AppendExpectedEffect where
  | notAttempted
  | possiblyCommitted
  | committed (receipt : AppendReceipt)
deriving DecidableEq

/-- `ExpiredSubject`. -/
inductive ExpiredSubject where
  | predecessor
  | target
deriving DecidableEq

/-- `AppendExpectedFailure`. -/
inductive AppendExpectedFailure where
  | storage (err : StreamsError)
  | predecessorMismatch (expected observed : EventRef)
  | positionConflict (stream : StreamId) (targetSeq : UInt64) (occupant : EventRef)
  | holeWitnessed (stream : StreamId) (targetSeq : UInt64) (later : EventRef)
  | expired (stream : StreamId) (targetSeq firstRetained : UInt64) (subject : ExpiredSubject)
deriving DecidableEq

/-- `AppendExpectedError`. -/
structure AppendExpectedError where
  kind : AppendExpectedFailure
  effect : AppendExpectedEffect
deriving DecidableEq

/-- `failed`. -/
def failed (kind : AppendExpectedFailure) (effect : AppendExpectedEffect) : AppendExpectedError := ⟨kind, effect⟩

/-- `storage`. -/
def storage (err : StreamsError) (effect : AppendExpectedEffect) : AppendExpectedError := failed (.storage err) effect

/-- `is_canonical_sha256_hex`. -/
def isCanonicalSha256Hex (value : Str) : Bool :=
  byteLen value = 64 && value.all fun c => (48 ≤ c.toNat && c.toNat ≤ 57) || (97 ≤ c.toNat && c.toNat ≤ 102)

variable (X : Crates) (K : AtomicKeyspace) (fuel : ℕ) (ids : ℕ → Bytes)

/-! ### Creation -/

/-- What the genesis found behind a lost race says: `Existing` for the caller's own bytes. -/
def judgeIncumbent (stream : StreamId) (genesis : Envelope) : Option Bytes → Except CreateStreamError CreateStreamOutcome
  | none => .error (.storage (.backendUnqualified "create_stream_with_id: genesis absent after AlreadyExists" []))
  | some bytes =>
    if bytes = genesis.encoded then .ok .existing
    else match Envelope.decodeAndVerify X stream 0 bytes with
      | none => .error (.storage (.corrupt stream [0]))
      | some _ => .error (.configurationConflict stream)

/-- A create error of `create_stream_with_id` that is no lost race. -/
def mapGenesisError (stream : StreamId) : KeyspaceError → CreateStreamError
  | err@(.invalidIdentifier _ _) | err@(.tombstoneImmutable _) | err@(.incarnationCounterImmutable _)
  | err@(.maintenanceFenceImmutable _) | err@(.trimCertificateImmutable _) =>
    .storage (.invalidArgument (.refusedGenesis stream err))
  | _ => .storage (.unavailable "create_stream_with_id")

/-- `create_stream_with_id`. -/
def createStreamWithId (stream : StreamId) (config : Bytes) : StoreOp CreateStreamError CreateStreamOutcome := do
  check ((validateSegment "stream id" stream.value).mapError .storage)
  let genesis ← check ((Envelope.genesis X stream config).mapError .storage)
  match ← Op.attempt (create X.toOutside K fuel (stream.logKey 0) genesis.encoded ids) with
  | .ok () => pure .created
  | .error (.alreadyExists _) => do
    let incumbent ← mapErr (fun err => .storage (mapEventReadError stream 0 "create_stream_with_id: incumbent readback" err))
      (get X.toOutside K (stream.logKey 0))
    check (judgeIncumbent X stream genesis incumbent)
  | .error err => throw (mapGenesisError stream err)

/-! ### Append at a position -/

/-- An operation of `append_expected`. -/
abbrev ExpectedOp (α : Type) := StoreOp AppendExpectedError α

/-- `classify_occupant`. -/
def classifyOccupant (stream : StreamId) (stableEventId : StableEventId) (targetSeq : UInt64) (bytes : Bytes) :
    Except StreamsError EventRef :=
  match Envelope.decodeAndVerify X stream targetSeq bytes with
  | none => .error (.corrupt stream [targetSeq])
  | some occupant =>
    if occupant.stableEventId = stableEventId then .error (.idempotencyConflict stream stableEventId targetSeq)
    else .ok occupant.identity

/-- The failure of a position that different bytes hold. -/
def occupied (stream : StreamId) (stableEventId : StableEventId) (targetSeq : UInt64) (bytes : Bytes)
    (effect : AppendExpectedEffect) : AppendExpectedError :=
  match classifyOccupant X stream stableEventId targetSeq bytes with
  | .ok occupant => failed (.positionConflict stream targetSeq occupant) effect
  | .error err => storage err effect

/-- A floor observed after the largest one so far: the floor in force, and the largest one now. -/
def reconcileFloor : Option UInt64 → Option UInt64 → Except StreamsError (UInt64 × Option UInt64)
  | some floor, some largest =>
    if floor < largest then
      .error (.backendUnqualified "certified trim floor regressed within one append_expected" [largest, floor])
    else .ok (floor, some floor)
  | none, some largest =>
    .error (.backendUnqualified "certified trim floor vanished from a later observation within one append_expected" [largest])
  | some floor, none => .ok (floor, some floor)
  | none, none => .ok (0, none)

/-- `observe_floor`, after the largest floor observed so far. -/
def observeFloor (stream : StreamId) (operation : String) (maxObserved : Option UInt64) :
    StreamOp (UInt64 × Option UInt64) := do
  let observed ← mapErr (mapKeyspace operation) (Keyspace.trimFloor K fuel stream.value)
  check (reconcileFloor observed maxObserved)

/-- `observe_floor` before the create. -/
def observeBefore (stream : StreamId) (operation : String) (maxObserved : Option UInt64) :
    ExpectedOp (UInt64 × Option UInt64) :=
  mapErr (storage · .notAttempted) (observeFloor K fuel stream operation maxObserved)

/-- The expiry of the target, and then of a predecessor that is not the genesis. -/
def refuseRetired (predecessor : EventRef) (targetSeq floor : UInt64) : Except AppendExpectedError Unit :=
  if targetSeq < floor then
    .error (failed (.expired predecessor.streamId targetSeq floor .target) .notAttempted)
  else if predecessor.seq > 0 ∧ predecessor.seq < floor then
    .error (failed (.expired predecessor.streamId targetSeq floor .predecessor) .notAttempted)
  else .ok ()

/-- The pure admission of `append_expected`: the target and its envelope. -/
def admission (predecessor : EventRef) (schemaId : SchemaId) (stableEventId : StableEventId) (payload : Bytes) :
    Except StreamsError (UInt64 × Envelope) := do
  validateSegment "stream id" predecessor.streamId.value
  validateSegment "schema id" schemaId.value
  validateSegment "stable event id" stableEventId.value
  validateSegment "predecessor stable event id" predecessor.stableEventId.value
  if ¬ isCanonicalSha256Hex predecessor.payloadSha256 then
    throw (.invalidArgument (.predecessorDigest predecessor.payloadSha256))
  match checkedSucc predecessor.seq with
  | none => throw (.seqExhausted predecessor.streamId)
  | some targetSeq => do
    let envelope ← Envelope.encode X predecessor.streamId targetSeq schemaId stableEventId payload
    pure (targetSeq, envelope)

/-- `verified_genesis`. -/
def verifiedGenesis (stream : StreamId) : ExpectedOp Envelope := do
  match ← mapErr (fun err => storage (mapEventReadError stream 0 "append_expected: genesis" err) .notAttempted)
      (get X.toOutside K (stream.logKey 0)) with
  | none => throw (storage (.streamNotFound stream) .notAttempted)
  | some bytes => check ((verify X stream 0 bytes).mapError (storage · .notAttempted))

/-- The four fields of the predecessor must be those of the event that was read. -/
def matchPredecessor (predecessor observed : EventRef) : Except AppendExpectedError Unit :=
  if observed = predecessor then .ok ()
  else .error (failed (.predecessorMismatch predecessor observed) .notAttempted)

/-- `verify_predecessor`. -/
def verifyPredecessor (predecessor : EventRef) (genesis : Envelope) (targetSeq : UInt64) (maxObserved : Option UInt64) :
    ExpectedOp Unit := do
  if predecessor.seq = 0 then check (matchPredecessor predecessor genesis.identity)
  else match ← mapErr (fun err => storage (mapEventReadError predecessor.streamId predecessor.seq
      "append_expected: predecessor" err) .notAttempted) (get X.toOutside K (predecessor.streamId.logKey predecessor.seq)) with
    | none => do
      let (floor, _) ← observeBefore K fuel predecessor.streamId "append_expected: floor reread" maxObserved
      check (refuseRetired predecessor targetSeq floor)
      throw (storage (.eventMissing predecessor.streamId predecessor.seq) .notAttempted)
    | some bytes => do
      let envelope ← check ((verify X predecessor.streamId predecessor.seq bytes).mapError (storage · .notAttempted))
      check (matchPredecessor predecessor envelope.identity)

/-- `probe_later_witness`. -/
def probeLaterWitness (stream : StreamId) (targetSeq : UInt64) : ExpectedOp Unit := do
  match ← mapErr (fun err => storage (mapKeyspace "append_expected: suffix probe" err) .notAttempted)
      (nextLogKeyAfter K stream targetSeq) with
  | none => pure ()
  | some later =>
    match ← mapErr (fun err => storage (mapEventReadError stream later "append_expected: suffix witness" err) .notAttempted)
        (get X.toOutside K (stream.logKey later)) with
    | none => throw (storage (.backendUnqualified
        "append_expected suffix probe: LIST named a seq past the target but GET found it absent" [later, targetSeq]) .notAttempted)
    | some bytes => do
      let envelope ← check ((verify X stream later bytes).mapError (storage · .notAttempted))
      throw (failed (.holeWitnessed stream targetSeq envelope.identity) .notAttempted)

/-- `adjudicate_committed`. -/
def adjudicateCommitted (stream : StreamId) (targetSeq : UInt64) (receipt : AppendReceipt) (maxObserved : Option UInt64) :
    ExpectedOp AppendReceipt := do
  match ← Op.attempt (observeFloor K fuel stream "append_expected: final floor" maxObserved) with
  | .error err => throw (storage err (.committed receipt))
  | .ok (floor, _) =>
    if targetSeq < floor then throw (failed (.expired stream targetSeq floor .target) (.committed receipt))
    else pure receipt

/-- `adjudicate_unresolved`. -/
def adjudicateUnresolved (stream : StreamId) (targetSeq : UInt64) (maxObserved : Option UInt64) :
    ExpectedOp AppendReceipt := do
  match ← Op.attempt (observeFloor K fuel stream "append_expected: final floor" maxObserved) with
  | .error err => throw (storage err .possiblyCommitted)
  | .ok (floor, _) =>
    if targetSeq < floor then throw (failed (.expired stream targetSeq floor .target) .possiblyCommitted)
    else throw (storage (.unavailable "append_expected: create outcome unresolved") .possiblyCommitted)

section
variable (predecessor : EventRef) (targetSeq : UInt64) (envelope : Envelope) (receipt : AppendReceipt)

/-- The target was read damaged below its envelope: retention is observed before that is reported. -/
def targetDamaged (err : StreamsError) : ExpectedOp AppendReceipt :=
  match err with
  | .corrupt _ _ => do
    let (floor, _) ← observeBefore K fuel predecessor.streamId "append_expected: trim floor" none
    if targetSeq < floor then throw (failed (.expired predecessor.streamId targetSeq floor .target) .notAttempted)
    else throw (storage err .notAttempted)
  | _ => throw (storage err .notAttempted)

/-- The target is occupied before the call wrote anything. -/
def targetOccupied (bytes : Bytes) : ExpectedOp AppendReceipt :=
  if bytes = envelope.encoded then adjudicateCommitted K fuel predecessor.streamId targetSeq receipt none
  else do
    let (floor, _) ← observeBefore K fuel predecessor.streamId "append_expected: trim floor" none
    if targetSeq < floor then throw (failed (.expired predecessor.streamId targetSeq floor .target) .notAttempted)
    else throw (occupied X predecessor.streamId envelope.stableEventId targetSeq bytes .notAttempted)

/-- The create failed: the exact position is read back. -/
def readBack (maxObserved : Option UInt64) : ExpectedOp AppendReceipt := do
  match ← Op.attempt (get X.toOutside K (predecessor.streamId.logKey targetSeq)) with
  | .ok (some bytes) =>
    if bytes = envelope.encoded then adjudicateCommitted K fuel predecessor.streamId targetSeq receipt maxObserved
    else match ← Op.attempt (observeFloor K fuel predecessor.streamId "append_expected: final floor" maxObserved) with
      | .error err => throw (storage err .possiblyCommitted)
      | .ok (floor, _) =>
        if targetSeq < floor then throw (failed (.expired predecessor.streamId targetSeq floor .target) .possiblyCommitted)
        else throw (occupied X predecessor.streamId envelope.stableEventId targetSeq bytes .possiblyCommitted)
  | .ok none => adjudicateUnresolved K fuel predecessor.streamId targetSeq maxObserved
  | .error err => do
    let witness := mapEventReadError predecessor.streamId targetSeq "append_expected: create readback" err
    match ← Op.attempt (observeFloor K fuel predecessor.streamId "append_expected: final floor" maxObserved) with
    | .ok (floor, _) =>
      if targetSeq < floor then throw (failed (.expired predecessor.streamId targetSeq floor .target) .possiblyCommitted)
      else throw (storage witness .possiblyCommitted)
    | .error (.backendUnqualified w seqs) => throw (storage (.backendUnqualified w seqs) .possiblyCommitted)
    | .error _ => throw (storage witness .possiblyCommitted)

/-- The one create, at the exact target. -/
def createAtTarget (maxObserved : Option UInt64) : ExpectedOp AppendReceipt := do
  match ← Op.attempt (create X.toOutside K fuel (predecessor.streamId.logKey targetSeq) envelope.encoded ids) with
  | .ok () => adjudicateCommitted K fuel predecessor.streamId targetSeq receipt maxObserved
  | .error _ => readBack X K fuel predecessor targetSeq envelope receipt maxObserved

/-- The target is absent: floor, predecessor and suffix are checked, and the floor once more, before the create. -/
def targetAbsent (genesis : Envelope) : ExpectedOp AppendReceipt := do
  let (floor, maxObserved) ← observeBefore K fuel predecessor.streamId "append_expected: trim floor" none
  check (refuseRetired predecessor targetSeq floor)
  verifyPredecessor X K fuel predecessor genesis targetSeq maxObserved
  probeLaterWitness X K predecessor.streamId targetSeq
  let (floor, maxObserved) ← observeBefore K fuel predecessor.streamId "append_expected: floor before create" maxObserved
  check (refuseRetired predecessor targetSeq floor)
  createAtTarget X K fuel ids predecessor targetSeq envelope receipt maxObserved

end

/-- `append_expected`. -/
def appendExpected (predecessor : EventRef) (schemaId : SchemaId) (stableEventId : StableEventId) (payload : Bytes) :
    ExpectedOp AppendReceipt := do
  let (targetSeq, envelope) ← check ((admission X predecessor schemaId stableEventId payload).mapError (storage · .notAttempted))
  let receipt := receiptAt predecessor.streamId stableEventId targetSeq envelope.payloadSha256
  let genesis ← verifiedGenesis X K predecessor.streamId
  match ← Op.attempt (get X.toOutside K (predecessor.streamId.logKey targetSeq)) with
  | .error err =>
    targetDamaged K fuel predecessor targetSeq (mapEventReadError predecessor.streamId targetSeq "append_expected: target" err)
  | .ok (some bytes) => targetOccupied X K fuel predecessor targetSeq envelope receipt bytes
  | .ok none => targetAbsent X K fuel ids predecessor targetSeq envelope receipt genesis

end YeetzS3.Streams
