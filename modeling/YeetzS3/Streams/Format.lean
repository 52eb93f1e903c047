import YeetzS3.Base64
import YeetzS3.Lineage.Format
import YeetzS3.Keyspace.Keys

/-!
# Events of a stream

The identifiers, envelopes, cursors, tail hints and seals of `yeetz-s3-streams`, their errors, and where they live in the
keyspace. An envelope is written once, as JSON with its payload in base64; a reader accepts it only at its own key and
with its own digest.
-/

namespace YeetzS3.Streams

open Keyspace (AtomicKeyspace byteLen validSegment)
open Lineage (Codec)

/-! ### Identifiers -/

/-- `StreamId`. A deserialized one was not checked. -/
structure StreamId where
  value : Str
deriving DecidableEq

/-- `SchemaId`. -/
structure SchemaId where
  value : Str
deriving DecidableEq

/-- `StableEventId`. -/
structure StableEventId where
  value : Str
deriving DecidableEq

/-- What names an event: `EventRef`. -/
structure EventRef where
  streamId : StreamId
  seq : UInt64
  stableEventId : StableEventId
  payloadSha256 : Str
deriving DecidableEq

/-! ### Errors -/

/-- What the text of a `StreamsError::InvalidArgument` says. -/
inductive Refusal where
  /-- `{kind} {value:?}` -/
  | segment (kind : String) (value : Str)
  /-- the keyspace's own error -/
  | keyspace (err : KeyspaceError)
  /-- `stream id {stream:?} names a refused genesis key: {err}` -/
  | refusedGenesis (stream : StreamId) (err : KeyspaceError)
  /-- `predecessor payload digest {value:?} is not canonical lowercase 64-hex` -/
  | predecessorDigest (value : Str)
  /-- `trim floor must retain the genesis (first_retained >= 1)` -/
  | trimGenesis
  /-- `trim floor {first_retained} exceeds the observable log end {end}` -/
  | trimBeyondEnd (firstRetained logEnd : UInt64)
  /-- `cursor target must be an event seq (>= 1)` -/
  | cursorTarget
  /-- `read_range limit must be at least 1` -/
  | rangeLimit
  /-- `read_range window is empty: after_seq {after_seq} must be strictly below through_seq {through_seq}` -/
  | rangeEmpty (afterSeq throughSeq : UInt64)
  /-- `migration entries must be dense from 1 (seq {seq} at position {position})` -/
  | migrationNotDense (seq : UInt64) (position : ℕ)
  /-- `migration conflict at seq {seq}: destination holds different bytes` -/
  | migrationConflict (seq : UInt64)
  /-- `stream is trimmed below {first_retained}; migration requires the full log` -/
  | migrationTrimmed (firstRetained : UInt64)
  /-- `unsupported migration seal format {version}` -/
  | sealFormat (version : UInt32)
  /-- `migration seal already exists with different content` -/
  | sealDiffers
deriving DecidableEq

/-- `StreamsError`. A witness is its text without its numbers, and the numbers. -/
inductive StreamsError where
  | invalidArgument (refusal : Refusal)
  | envelopeTooLarge (encodedLen maxEncodedLen : ℕ)
  | streamNotFound (stream : StreamId)
  | appendBudgetExhausted (stream : StreamId) (attempted : UInt64) (budget : ℕ)
  | idempotencyConflict (stream : StreamId) (stableEventId : StableEventId) (conflictingSeq : UInt64)
  | seqExhausted (stream : StreamId)
  | unavailable (operation : String)
  | backendUnqualified (witness : String) (seqs : List UInt64)
  | corrupt (stream : StreamId) (missingOrMismatched : List UInt64)
  | migrationSealCorrupt (stream : StreamId) (reason : String)
  | cursorCorrupt (stream : StreamId) (consumer : Str) (reason : String)
  | eventMissing (stream : StreamId) (seq : UInt64)
  | cursorNotMonotonic (stream : StreamId) (current target : UInt64)
  | offsetExpired (stream : StreamId) (firstRetained : UInt64)
deriving DecidableEq

/-- `map_keyspace`. -/
def mapKeyspace (operation : String) : KeyspaceError → StreamsError
  | .unavailable _ => .unavailable operation
  | other => .invalidArgument (.keyspace other)

/-- `map_event_read_error`: damage below the envelope is damage at the event. -/
def mapEventReadError (stream : StreamId) (seq : UInt64) (operation : String) : KeyspaceError → StreamsError
  | .valueEnvelopeMalformed _ | .manifestMalformed _ | .manifestRootMismatch _ | .manifestTooLarge _ _ _
  | .chunkCountInvalid _ _ | .valueTooLarge _ _ _ | .chunkMissing _ _ | .chunkIntegrity _ _ => .corrupt stream [seq]
  | .invalidIdentifier kind value => .invalidArgument (.keyspace (.invalidIdentifier kind value))
  | _ => .unavailable operation

/-- `validate_segment`. -/
def validateSegment (kind : String) (value : Str) : Except StreamsError Unit :=
  if value = [] ∨ byteLen value > 255 ∨ value.head? = some '/' ∨ value.getLast? = some '/' then
    .error (.invalidArgument (.segment kind value))
  else if (value.splitOn '/').all validSegment then .ok ()
  else .error (.invalidArgument (.segment kind value))

/-- `StreamId::new`. -/
def StreamId.new (opaqueId : Str) : Except StreamsError StreamId := (validateSegment "stream id" opaqueId).map fun _ => ⟨opaqueId⟩

/-- `SchemaId::new`. -/
def SchemaId.new (value : Str) : Except StreamsError SchemaId := (validateSegment "schema id" value).map fun _ => ⟨value⟩

/-- `StableEventId::new`. -/
def StableEventId.new (value : Str) : Except StreamsError StableEventId :=
  (validateSegment "stable event id" value).map fun _ => ⟨value⟩

/-! ### Keys -/

namespace StreamId

variable (stream : StreamId)

/-- What the keys of a stream's events begin with. -/
def logPrefix : Str := stream.value ++ "/log/".toList

/-- `log_key`, `log_key_of`. -/
def logKey (seq : UInt64) : Str := stream.logPrefix ++ seqComponent seq

/-- `tail_key`. -/
def tailKey : Str := stream.value ++ "/tail".toList

/-- `cursor_key`. -/
def cursorKey (consumer : Str) : Except StreamsError Str :=
  (validateSegment "consumer" consumer).map fun _ => stream.value ++ "/cursors/".toList ++ consumer

/-- The key of the migration seal. -/
def sealKey : Str := stream.value ++ "/migration-seal".toList

end StreamId

/-! ### Formats -/

/-- `ENVELOPE_FORMAT_VERSION`. -/
def envelopeFormatVersion : UInt32 := 1
/-- `GENESIS_SCHEMA_ID`. -/
def genesisSchemaId : SchemaId := ⟨"stream.genesis.v1".toList⟩
/-- The stable event id of every genesis. -/
def genesisEventId : StableEventId := ⟨"genesis".toList⟩
/-- `MAX_ENCODED_ENVELOPE_BYTES`. -/
def maxEncodedEnvelopeBytes : ℕ := 16 * 1024 * 1024

/-- `WireEnvelope`. -/
structure WireEnvelope where
  formatVersion : UInt32
  streamId : Str
  seq : UInt64
  stableEventId : Str
  schemaId : Str
  payloadLen : UInt64
  payloadSha256 : Str
  payload : Str
deriving DecidableEq

/-- `TailHint`. -/
structure TailHint where
  formatVersion : UInt32
  highestValidatedDenseSeq : UInt64
  terminalRecordDigest : Str
deriving DecidableEq

/-- `Cursor`. -/
structure Cursor where
  formatVersion : UInt32
  streamId : StreamId
  seq : UInt64
  eventId : Str
deriving DecidableEq

/-- `MigrationSeal`. -/
structure MigrationSeal where
  formatVersion : UInt32
  sourceLineage : Str
  sourceHeadDigest : Str
  eventCount : UInt64
  eventRootDigest : Str
deriving DecidableEq

/-- SHA-256, and serde's JSON of the structures the streams store. -/
structure Crates extends Outside where
  envelope : Codec WireEnvelope
  tailHint : Codec TailHint
  cursor : Codec Cursor
  migrationSeal : Codec MigrationSeal

variable (X : Crates)

/-- `sha256_hex`. -/
def sha256Hex (bytes : Bytes) : Str := hexEncode (X.sha256 bytes)

/-- `Envelope`. -/
structure Envelope where
  formatVersion : UInt32
  identity : EventRef
  schemaId : SchemaId
  payload : Bytes
  encoded : Bytes
deriving DecidableEq

namespace Envelope

/-- `seq`. -/
def seq (e : Envelope) : UInt64 := e.identity.seq

/-- `stable_event_id`. -/
def stableEventId (e : Envelope) : StableEventId := e.identity.stableEventId

/-- `payload_sha256`. -/
def payloadSha256 (e : Envelope) : Str := e.identity.payloadSha256

/-- `digest_hex`. -/
def digestHex (e : Envelope) : Str := sha256Hex X e.encoded

/-- The wire form of an event. -/
def wireOf (stream : StreamId) (seq : UInt64) (schemaId : SchemaId) (stableEventId : StableEventId) (payload : Bytes) :
    WireEnvelope :=
  ⟨envelopeFormatVersion, stream.value, seq, stableEventId.value, schemaId.value, UInt64.ofNat payload.length,
    sha256Hex X payload, Base64.encode payload⟩

/-- The canonical bytes of an event. -/
def bytesOf (stream : StreamId) (seq : UInt64) (schemaId : SchemaId) (stableEventId : StableEventId) (payload : Bytes) :
    Bytes :=
  X.envelope.toVec (wireOf X stream seq schemaId stableEventId payload)

/-- `Envelope::encode`. -/
def encode (stream : StreamId) (seq : UInt64) (schemaId : SchemaId) (stableEventId : StableEventId) (payload : Bytes) :
    Except StreamsError Envelope :=
  let encoded := bytesOf X stream seq schemaId stableEventId payload
  if encoded.length > maxEncodedEnvelopeBytes then .error (.envelopeTooLarge encoded.length maxEncodedEnvelopeBytes)
  else .ok ⟨envelopeFormatVersion, ⟨stream, seq, stableEventId, sha256Hex X payload⟩, schemaId, payload, encoded⟩

/-- `Envelope::genesis`. -/
def genesis (stream : StreamId) (config : Bytes) : Except StreamsError Envelope :=
  encode X stream 0 genesisSchemaId genesisEventId config

/-- `Envelope::decode_and_verify`; `none` is `EnvelopeMismatch`. -/
def decodeAndVerify (expectedStream : StreamId) (expectedSeq : UInt64) (bytes : Bytes) : Option Envelope := do
  let wire ← X.envelope.fromSlice bytes
  guard (wire.formatVersion = envelopeFormatVersion)
  -- the key and the envelope must agree
  guard (wire.streamId = expectedStream.value ∧ wire.seq = expectedSeq)
  let payload ← Base64.decode wire.payload
  guard (UInt64.ofNat payload.length = wire.payloadLen)
  guard (sha256Hex X payload = wire.payloadSha256)
  let streamId ← (StreamId.new wire.streamId).toOption
  let stableEventId ← (StableEventId.new wire.stableEventId).toOption
  let schemaId ← (SchemaId.new wire.schemaId).toOption
  some ⟨wire.formatVersion, ⟨streamId, wire.seq, stableEventId, wire.payloadSha256⟩, schemaId, payload, bytes⟩

end Envelope

/-- `AppendReceipt`. -/
structure AppendReceipt where
  streamId : StreamId
  seq : UInt64
  stableEventId : StableEventId
  payloadSha256 : Str
deriving DecidableEq

/-- `Replay`. -/
inductive Replay where
  | notFound (stream : StreamId)
  | empty
  | page (events : List Envelope) (complete : Bool)
  | corrupt (missingOrMismatched : List UInt64)
  | offsetExpired (firstRetained : UInt64)
  | unavailable (operation : String)
  | backendUnqualified (witness : String) (seqs : List UInt64)
deriving DecidableEq

/-- `RangePage`. -/
structure RangePage where
  events : List Envelope
  reachedEnd : Bool
deriving DecidableEq

end YeetzS3.Streams
