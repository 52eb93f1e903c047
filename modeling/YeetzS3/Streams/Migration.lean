import YeetzS3.Streams.Conditional
import Mathlib.Data.List.Sort

/-!
# Migration

`migration.rs`: a log copied into a stream at explicit positions and read back, and the seal written once afterwards.
-/

namespace YeetzS3.Streams

open Conc
open Keyspace (AtomicKeyspace get create)

/-- `MigrationEntry`. -/
structure MigrationEntry where
  seq : UInt64
  schemaId : SchemaId
  stableEventId : StableEventId
  payload : Bytes
deriving DecidableEq

/-- `MigrationReceipt`. -/
structure MigrationReceipt where
  count : UInt64
  eventRootDigest : Str
deriving DecidableEq

/-- The entries in order: `sort_by_key`, which is stable. -/
def orderedEntries (entries : List MigrationEntry) : List MigrationEntry :=
  entries.insertionSort fun a b => a.seq ≤ b.seq

/-- The entries from `position` on are numbered from `position + 1` on, one by one. -/
def checkDense : ℕ → List MigrationEntry → Except StreamsError Unit
  | _, [] => .ok ()
  | position, entry :: entries =>
    if entry.seq.toNat ≠ position + 1 then .error (.invalidArgument (.migrationNotDense entry.seq position))
    else checkDense (position + 1) entries

variable (X : Crates) (K : AtomicKeyspace) (fuel : ℕ) (ids : ℕ → Bytes)

/-- `verify_migration_genesis`. -/
def verifyMigrationGenesis (stream : StreamId) : StreamOp Unit := do
  match ← Op.attempt (get X.toOutside K (stream.logKey 0)) with
  | .ok (some bytes) => do
    let _ ← check (verify X stream 0 bytes)
    pure ()
  | .ok none => throw (.streamNotFound stream)
  | .error (.valueEnvelopeMalformed _) => throw (.corrupt stream [0])
  | .error _ => throw (.unavailable "migration: read genesis")

/-- What is at the position of an entry must be the entry. -/
def checkLanded (stream : StreamId) (envelope : Envelope) (existing : Bytes) : Except StreamsError Unit :=
  if existing = envelope.encoded then .ok ()
  else match Envelope.decodeAndVerify X stream envelope.seq existing with
    | none => .error (.corrupt stream [envelope.seq])
    | some _ => .error (.invalidArgument (.migrationConflict envelope.seq))

/-- One entry at its position. -/
def migrateEntry (stream : StreamId) (entry : MigrationEntry) : StreamOp Envelope := do
  let envelope ← check (Envelope.encode X stream entry.seq entry.schemaId entry.stableEventId entry.payload)
  match ← Op.attempt (create X.toOutside K fuel (stream.logKey entry.seq) envelope.encoded ids) with
  | .ok () => pure envelope
  | .error (.alreadyExists _) => do
    match ← mapErr (fun _ => .unavailable "migrate_log: get") (get X.toOutside K (stream.logKey entry.seq)) with
    | none => throw (.backendUnqualified "migration: create conflict but readback absent" [entry.seq])
    | some existing => do
      check (checkLanded X stream envelope existing)
      pure envelope
  | .error _ => throw (.unavailable "migrate_log: create")

/-- The entries one after the other. -/
def migrateEntries (stream : StreamId) : List MigrationEntry → StreamOp (List Envelope)
  | [] => pure []
  | entry :: entries => do
    let envelope ← migrateEntry X K fuel ids stream entry
    let envelopes ← migrateEntries stream entries
    pure (envelope :: envelopes)

/-- The events of a page go on from `after`. -/
def checkPage : UInt64 → List Envelope → Except StreamsError UInt64
  | after, [] => .ok after
  | after, envelope :: events =>
    if envelope.seq ≠ after + 1 then
      .error (.backendUnqualified "migration verification: unexpected seq" [after + 1, envelope.seq])
    else checkPage envelope.seq events

/-- What a page read back says about the migrated log: where to go on, or where it ends. -/
def judgePage (stream : StreamId) (after : UInt64) : Replay → Except StreamsError (UInt64 × Bool)
  | .page events complete => (checkPage after events).map fun after => (after, complete)
  | .empty => .ok (after, true)
  | .corrupt missingOrMismatched => .error (.corrupt stream missingOrMismatched)
  | .unavailable operation => .error (.unavailable operation)
  | .backendUnqualified witness seqs => .error (.backendUnqualified witness seqs)
  | .notFound _ => .error (.streamNotFound stream)
  | .offsetExpired firstRetained => .error (.invalidArgument (.migrationTrimmed firstRetained))

/-- The read-back of a migrated log: its last position. -/
def readBackLoop (stream : StreamId) : ℕ → UInt64 → StreamOp UInt64
  | 0, _ => Op.stop
  | rounds + 1, after => do
    match ← check (judgePage stream after (← ExceptT.lift (read X K fuel ids stream after 256))) with
    | (after, true) => pure after
    | (after, false) => readBackLoop stream rounds after

/-- `migrate_log`. -/
def migrateLog (stream : StreamId) (entries : List MigrationEntry) : StreamOp MigrationReceipt := do
  let ordered := orderedEntries entries
  check (checkDense 0 ordered)
  verifyMigrationGenesis X K stream
  let envelopes ← migrateEntries X K fuel ids stream ordered
  let expectedCount := UInt64.ofNat ordered.length
  let after ← readBackLoop X K fuel ids stream fuel 0
  if after ≠ expectedCount then
    throw (.backendUnqualified "migration verification: count differs from the expected" [after, expectedCount])
  else do
    match envelopes.getLast? with
    | some terminal => ExceptT.lift (advanceTailHint X K fuel ids stream expectedCount terminal)
    | none => pure ()
    pure ⟨expectedCount, hexEncode (X.sha256 (envelopes.flatMap fun envelope => X.sha256 envelope.encoded))⟩

/-! ### The seal -/

/-- `decode_migration_seal`. -/
def decodeMigrationSeal (stream : StreamId) (bytes : Bytes) : Except StreamsError MigrationSeal :=
  match X.migrationSeal.fromSlice bytes with
  | none => .error (.migrationSealCorrupt stream "payload is malformed")
  | some landed =>
    if landed.formatVersion ≠ envelopeFormatVersion then
      .error (.migrationSealCorrupt stream "format version is unsupported")
    else .ok landed

/-- `write_migration_seal`. -/
def writeMigrationSeal (stream : StreamId) (value : MigrationSeal) : StreamOp Unit := do
  if value.formatVersion ≠ envelopeFormatVersion then throw (.invalidArgument (.sealFormat value.formatVersion))
  else do
    verifyMigrationGenesis X K stream
    match ← Op.attempt (create X.toOutside K fuel stream.sealKey (X.migrationSeal.toVec value) ids) with
    | .ok () => pure ()
    | .error (.alreadyExists _) =>
      match ← Op.attempt (get X.toOutside K stream.sealKey) with
      | .ok none => throw (.backendUnqualified "seal create conflict but readback absent" [])
      | .error (.valueEnvelopeMalformed _) => throw (.migrationSealCorrupt stream "keyspace value envelope is malformed")
      | .error _ => throw (.unavailable "write_migration_seal: readback")
      | .ok (some existing) => do
        let landed ← check (decodeMigrationSeal X stream existing)
        if landed = value then pure () else throw (.invalidArgument .sealDiffers)
    | .error _ => throw (.unavailable "write_migration_seal")

/-- `read_migration_seal`. -/
def readMigrationSeal (stream : StreamId) : StreamOp (Option MigrationSeal) := do
  match ← Op.attempt (get X.toOutside K stream.sealKey) with
  | .ok (some bytes) => do
    verifyMigrationGenesis X K stream
    some <$> check (decodeMigrationSeal X stream bytes)
  | .ok none => pure none
  | .error (.valueEnvelopeMalformed _) => throw (.migrationSealCorrupt stream "keyspace value envelope is malformed")
  | .error _ => throw (.unavailable "read_migration_seal")

end YeetzS3.Streams
