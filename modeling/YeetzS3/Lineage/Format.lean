import YeetzS3.Tombstone

/-!
# Objects of a lineage

The names, records, checkpoints, heads and projections of `state_kernel.rs`, and their JSON formats. Every
decoder parses permissively, rebuilds the value and accepts the bytes only if they are exactly what the value
encodes to. `Crates` collects the functions of other crates the code calls: SHA-256, and serde's derived
codec of each wire structure.
-/

namespace YeetzS3.Lineage

/-! ### Names -/

/-- `SuccessorPolicy`. -/
inductive SuccessorPolicy where
  | genesisOnly
  | successorCapable
deriving DecidableEq

/-- `u8::is_ascii_graphic`. -/
def isAsciiGraphic (c : Char) : Bool := 0x21 ≤ c.toNat && c.toNat ≤ 0x7e

/-- `MAX_IDENTIFIER_BYTES`. -/
def maxIdentifierBytes : ℕ := 512

/-- `is_valid_identifier`; a graphic character is one byte long. -/
def isValidIdentifier (value : Str) : Bool :=
  value ≠ [] && value.length ≤ maxIdentifierBytes && value.all isAsciiGraphic

/-- `is_valid_lineage`. -/
def isValidLineage (value : Str) : Bool :=
  let firstSegment := (value.splitOn '/').headD []
  if firstSegment = "keyspace".toList ∨ firstSegment = "keyspace-chunks".toList then false
  else value ≠ [] && value.length ≤ maxIdentifierBytes &&
    (value.splitOn '/').all fun segment => isValidIdentifier segment && segment ≠ ".".toList && segment ≠ "..".toList

/-- `KernelLineage`, as `KernelLineage::new` accepts it. -/
structure KernelLineage where
  value : Str
  policy : SuccessorPolicy
  valid : isValidLineage value = true
deriving DecidableEq

/-- Lower-case hex of a SHA-256 digest. -/
def isDigest (value : Str) : Bool :=
  value.length = 64 && value.all fun c => (48 ≤ c.toNat && c.toNat ≤ 57) || (97 ≤ c.toNat && c.toNat ≤ 102)

/-- `RecordDigest`. -/
structure RecordDigest where
  hex : Str
  valid : isDigest hex = true
deriving DecidableEq

/-- `RecordDigest::parse`. -/
def RecordDigest.parse (value : Str) : Option RecordDigest :=
  if h : isDigest value = true then some ⟨value, h⟩ else none

namespace KernelLineage

variable (l : KernelLineage)

/-- `object_key`. -/
def objectKey (digest : RecordDigest) : Str := l.value ++ '/' :: ("objects".toList ++ '/' :: digest.hex)

/-- `checkpoint_key`. -/
def checkpointKey (digest : RecordDigest) : Str := l.value ++ '/' :: ("checkpoints".toList ++ '/' :: digest.hex)

/-- `head_key`. -/
def headKey : Str := l.value ++ '/' :: "head".toList

/-- `tombstone_key`. -/
def tombstoneKey : Str := l.value ++ '/' :: "tombstone".toList

/-- `incarnation_key`. -/
def incarnationKey : Str := l.value ++ '/' :: "incarnation".toList

/-- `same_identity`: the policy is not part of it. -/
def sameIdentity (other : KernelLineage) : Bool := l.value = other.value

end KernelLineage

/-! ### Errors -/

/-- `SafeReference`. -/
structure SafeReference where
  lineage : Str
  generation : Option UInt64 := none
  digest : Option RecordDigest := none
deriving DecidableEq

/-- `SafeReference::invalid`. -/
def SafeReference.invalid : SafeReference := ⟨"invalid".toList, none, none⟩

/-- `SafeReference::for_lineage`. -/
def SafeReference.forLineage (l : KernelLineage) : SafeReference := ⟨l.value, none, none⟩

/-- `SafeReference::for_digest`. -/
def SafeReference.forDigest (l : KernelLineage) (digest : RecordDigest) : SafeReference := ⟨l.value, none, some digest⟩

/-- `KernelError`. -/
inductive KernelError where
  | digestMismatch (reference : SafeReference)
  | lineageHeadConflict (current : Option SafeReference)
  | stateRecordMalformed (reference : SafeReference)
  | stateHistoryIncomplete (reference : SafeReference)
  | protocolEpochUnsupported (reference : SafeReference) (observed : UInt16)
  | successorNotAllowed (reference : SafeReference)
  | tombstoneCorrupt (reference : SafeReference)
  | stateUnavailable (operation : String)
deriving DecidableEq

/-! ### Wire structures -/

/-- `PositionWire`. -/
structure PositionWire where
  digest : Str
  generation : UInt64
deriving DecidableEq

/-- `RecordWire`. -/
structure RecordWire where
  actorId : Str
  causeId : Str
  envelope : Str
  lineage : Str
  operationId : Str
  payloadHex : Str
  prior : Option PositionWire
  protocolEpoch : UInt16
  sequence : UInt64
  transitionSchema : Str
  transitionType : Str
deriving DecidableEq

/-- `HeadWire`. -/
structure HeadWire where
  envelope : Str
  generation : UInt64
  incarnation : UInt64
  lineage : Str
  prior : Option PositionWire
  recordDigest : Str
deriving DecidableEq

/-- `HeadWireV1`: the shape of a head before it carried an incarnation. -/
structure HeadWireV1 where
  envelope : Str
  generation : UInt64
  lineage : Str
  prior : Option PositionWire
  recordDigest : Str
deriving DecidableEq

/-- `CheckpointWire`. -/
structure CheckpointWire where
  envelope : Str
  lastIncludedRecordDigest : Str
  lineage : Str
  protocolEpoch : UInt16
  sourceGeneration : UInt64
  sourceHeadDigest : Str
  stateHex : Str
  transitionSchema : Str
deriving DecidableEq

/-- `ProjectedRecordWire`. -/
structure ProjectedRecordWire where
  bytesHex : Str
  digest : Str
deriving DecidableEq

/-- `ProjectionWire`. -/
structure ProjectionWire where
  envelope : Str
  records : List ProjectedRecordWire
  sourceDigest : Str
  sourceGeneration : UInt64
  sourceLineage : Str
deriving DecidableEq

/-- What serde derives for one wire structure: what was written reads back. -/
structure Codec (W : Type) where
  toVec : W → Bytes
  fromSlice : Bytes → Option W
  fromSlice_toVec : ∀ w, fromSlice (toVec w) = some w

/-- The functions of other crates the lineages call. A structure with an unknown or a missing field does not
parse, so neither shape of a head reads as the other. -/
structure Crates extends Outside where
  sha256_length : ∀ b, (sha256 b).length = 32
  record : Codec RecordWire
  checkpoint : Codec CheckpointWire
  head : Codec HeadWire
  headV1 : Codec HeadWireV1
  projection : Codec ProjectionWire
  headV1_of_head : ∀ w, headV1.fromSlice (head.toVec w) = none
  head_of_headV1 : ∀ w, head.fromSlice (headV1.toVec w) = none

/-! ### Hex -/

theorem hexEncode_length (bs : Bytes) : (hexEncode bs).length = 2 * bs.length := by
  induction bs with
  | nil => rfl
  | cons b bs ih =>
    rw [show hexEncode (b :: bs) = hexDigit (b.toNat / 16) :: hexDigit (b.toNat % 16) :: hexEncode bs from rfl,
      List.length_cons, List.length_cons, ih, List.length_cons]
    omega

theorem isDigest_hexEncode {bs : Bytes} (h : bs.length = 32) : isDigest (hexEncode bs) = true := by
  have hd : ∀ n < 16, ((48 ≤ (hexDigit n).toNat && (hexDigit n).toNat ≤ 57) ||
      (97 ≤ (hexDigit n).toNat && (hexDigit n).toNat ≤ 102)) = true := by decide
  rw [isDigest, hexEncode_length, h]
  simp only [Nat.reduceMul, decide_true, Bool.true_and, List.all_eq_true]
  intro c hc
  obtain ⟨b, -, hb⟩ := List.mem_flatMap.1 hc
  have hlt := b.toNat_lt
  rcases List.mem_cons.1 hb with rfl | hb
  · exact hd _ (by omega)
  · rw [List.mem_singleton.1 hb]
    exact hd _ (by omega)

/-- `RecordDigest::of`. -/
def RecordDigest.of (X : Crates) (bytes : Bytes) : RecordDigest :=
  ⟨hexEncode (X.sha256 bytes), isDigest_hexEncode (X.sha256_length bytes)⟩

@[simp] theorem RecordDigest.parse_hex (d : RecordDigest) : RecordDigest.parse d.hex = some d := dif_pos d.valid

/-! ### Records -/

/-- `RecordPosition`. -/
structure RecordPosition where
  generation : UInt64
  digest : RecordDigest
deriving DecidableEq

/-- `PositionWire::from`. -/
def RecordPosition.wire (p : RecordPosition) : PositionWire := ⟨p.digest.hex, p.generation⟩

/-- `into_position`, with the error it is given. -/
def PositionWire.intoPosition (w : PositionWire) (err : KernelError) : Except KernelError RecordPosition :=
  match RecordDigest.parse w.digest with
  | some digest => .ok ⟨w.generation, digest⟩
  | none => .error err

/-- `prior.map(into_position).transpose()`. -/
def intoPrior (err : KernelError) : Option PositionWire → Except KernelError (Option RecordPosition)
  | none => .ok none
  | some w => (w.intoPosition err).map some

/-- The position before generation `n`: none before the first, and one generation less otherwise. -/
def priorFits (n : UInt64) (prior : Option RecordPosition) : Bool :=
  !(decide (n = 0) && prior.isSome) && !(decide (n > 0) && prior.all fun p => p.generation ≠ n - 1)

/-- What `CanonicalRecord::new` checks. -/
def recordFieldsValid (transitionType transitionSchema operationId actorId causeId : Str) (sequence : UInt64)
    (prior : Option RecordPosition) : Bool :=
  isValidIdentifier transitionType && isValidIdentifier transitionSchema && isValidIdentifier operationId &&
    isValidIdentifier actorId && isValidIdentifier causeId && priorFits sequence prior

/-- `CanonicalRecord`, as `CanonicalRecord::new` accepts it. -/
structure CanonicalRecord where
  lineage : KernelLineage
  sequence : UInt64
  prior : Option RecordPosition
  transitionType : Str
  transitionSchema : Str
  payload : Bytes
  operationId : Str
  actorId : Str
  causeId : Str
  valid : recordFieldsValid transitionType transitionSchema operationId actorId causeId sequence prior = true
deriving DecidableEq

/-- `RECORD_ENVELOPE`. -/
def recordEnvelope : Str := "llm_gateway_state_record/v1".toList
/-- `HEAD_ENVELOPE_V1`. -/
def headEnvelopeV1 : Str := "llm_gateway_state_head/v1".toList
/-- `HEAD_ENVELOPE_V2`. -/
def headEnvelopeV2 : Str := "llm_gateway_state_head/v2".toList
/-- `CHECKPOINT_ENVELOPE`. -/
def checkpointEnvelope : Str := "llm_gateway_state_checkpoint/v1".toList
/-- `PROJECTION_ENVELOPE`. -/
def projectionEnvelope : Str := "llm_gateway_state_projection/v1".toList
/-- `SUPPORTED_PROTOCOL_EPOCH`. -/
def supportedProtocolEpoch : UInt16 := 1

namespace CanonicalRecord

/-- `CanonicalRecord::new`. -/
def new (l : KernelLineage) (sequence : UInt64) (prior : Option RecordPosition) (transitionType transitionSchema : Str)
    (payload : Bytes) (operationId actorId causeId : Str) : Except KernelError CanonicalRecord :=
  if h : recordFieldsValid transitionType transitionSchema operationId actorId causeId sequence prior = true then
    .ok ⟨l, sequence, prior, transitionType, transitionSchema, payload, operationId, actorId, causeId, h⟩
  else .error (.stateRecordMalformed (.forLineage l))

/-- The wire structure `canonical_bytes` serializes. -/
def wire (r : CanonicalRecord) : RecordWire where
  actorId := r.actorId
  causeId := r.causeId
  envelope := recordEnvelope
  lineage := r.lineage.value
  operationId := r.operationId
  payloadHex := hexEncode r.payload
  prior := r.prior.map RecordPosition.wire
  protocolEpoch := supportedProtocolEpoch
  sequence := r.sequence
  transitionSchema := r.transitionSchema
  transitionType := r.transitionType

variable (X : Crates)

/-- `canonical_bytes`. -/
def canonicalBytes (r : CanonicalRecord) : Bytes := X.record.toVec r.wire

/-- `digest`. -/
def digest (r : CanonicalRecord) : RecordDigest := .of X (r.canonicalBytes X)

/-- `record_position`. -/
def position (r : CanonicalRecord) : RecordPosition := ⟨r.sequence, r.digest X⟩

/-- `reference`. -/
def reference (r : CanonicalRecord) (digest : Option RecordDigest) : SafeReference :=
  ⟨r.lineage.value, some r.sequence, digest⟩

/-- `from_bytes` once the wire structure is parsed. -/
def ofWire (l : KernelLineage) (expected : RecordDigest) (bytes : Bytes) (wire : RecordWire) :
    Except KernelError CanonicalRecord :=
  let malformed := KernelError.stateRecordMalformed (.forDigest l expected)
  if wire.envelope ≠ recordEnvelope then .error malformed
  else if wire.protocolEpoch ≠ supportedProtocolEpoch then
    .error (.protocolEpochUnsupported (.forDigest l expected) wire.protocolEpoch)
  else if wire.lineage ≠ l.value then .error malformed
  else match intoPrior malformed wire.prior with
    | .error e => .error e
    | .ok prior =>
      match hexDecode wire.payloadHex with
      | none => .error malformed
      | some payload =>
        match new l wire.sequence prior wire.transitionType wire.transitionSchema payload wire.operationId wire.actorId
          wire.causeId with
        | .error e => .error e
        | .ok record => if record.canonicalBytes X ≠ bytes then .error malformed else .ok record

/-- `from_bytes`. -/
def fromBytes (l : KernelLineage) (expected : RecordDigest) (bytes : Bytes) : Except KernelError CanonicalRecord :=
  if RecordDigest.of X bytes ≠ expected then .error (.digestMismatch (.forDigest l expected))
  else match X.record.fromSlice bytes with
    | none => .error (.stateRecordMalformed (.forDigest l expected))
    | some wire => ofWire X l expected bytes wire

end CanonicalRecord

/-! ### Checkpoints -/

/-- `CanonicalCheckpoint`, as `CanonicalCheckpoint::new` accepts it. -/
structure CanonicalCheckpoint where
  lineage : KernelLineage
  transitionSchema : Str
  sourceGeneration : UInt64
  sourceHeadDigest : RecordDigest
  lastIncludedRecordDigest : RecordDigest
  stateBytes : Bytes
  valid : isValidIdentifier transitionSchema = true
deriving DecidableEq

namespace CanonicalCheckpoint

/-- `CanonicalCheckpoint::new`. -/
def new (l : KernelLineage) (transitionSchema : Str) (sourceGeneration : UInt64)
    (sourceHeadDigest lastIncludedRecordDigest : RecordDigest) (stateBytes : Bytes) :
    Except KernelError CanonicalCheckpoint :=
  if h : isValidIdentifier transitionSchema = true then
    .ok ⟨l, transitionSchema, sourceGeneration, sourceHeadDigest, lastIncludedRecordDigest, stateBytes, h⟩
  else .error (.stateRecordMalformed (.forLineage l))

/-- The wire structure `canonical_bytes` serializes. -/
def wire (c : CanonicalCheckpoint) : CheckpointWire where
  envelope := checkpointEnvelope
  lastIncludedRecordDigest := c.lastIncludedRecordDigest.hex
  lineage := c.lineage.value
  protocolEpoch := supportedProtocolEpoch
  sourceGeneration := c.sourceGeneration
  sourceHeadDigest := c.sourceHeadDigest.hex
  stateHex := hexEncode c.stateBytes
  transitionSchema := c.transitionSchema

variable (X : Crates)

/-- `canonical_bytes`. -/
def canonicalBytes (c : CanonicalCheckpoint) : Bytes := X.checkpoint.toVec c.wire

/-- `digest`. -/
def digest (c : CanonicalCheckpoint) : RecordDigest := .of X (c.canonicalBytes X)

/-- `from_bytes` once the wire structure is parsed. -/
def ofWire (l : KernelLineage) (expected : RecordDigest) (bytes : Bytes) (wire : CheckpointWire) :
    Except KernelError CanonicalCheckpoint :=
  let malformed := KernelError.stateRecordMalformed (.forDigest l expected)
  if wire.envelope ≠ checkpointEnvelope ∨ wire.lineage ≠ l.value then .error malformed
  else if wire.protocolEpoch ≠ supportedProtocolEpoch then
    .error (.protocolEpochUnsupported (.forDigest l expected) wire.protocolEpoch)
  else match RecordDigest.parse wire.sourceHeadDigest with
    | none => .error malformed
    | some sourceHeadDigest =>
      match RecordDigest.parse wire.lastIncludedRecordDigest with
      | none => .error malformed
      | some lastIncludedRecordDigest =>
        match hexDecode wire.stateHex with
        | none => .error malformed
        | some stateBytes =>
          match new l wire.transitionSchema wire.sourceGeneration sourceHeadDigest lastIncludedRecordDigest stateBytes with
          | .error e => .error e
          | .ok checkpoint => if checkpoint.canonicalBytes X ≠ bytes then .error malformed else .ok checkpoint

/-- `from_bytes`. -/
def fromBytes (l : KernelLineage) (expected : RecordDigest) (bytes : Bytes) : Except KernelError CanonicalCheckpoint :=
  if RecordDigest.of X bytes ≠ expected then .error (.digestMismatch (.forDigest l expected))
  else match X.checkpoint.fromSlice bytes with
    | none => .error (.stateRecordMalformed (.forDigest l expected))
    | some wire => ofWire X l expected bytes wire

end CanonicalCheckpoint

/-! ### Heads -/

/-- `CanonicalHead`. The appends build it without a check of `prior`. -/
structure CanonicalHead where
  lineage : KernelLineage
  generation : UInt64
  incarnation : UInt64
  recordDigest : RecordDigest
  prior : Option RecordPosition
deriving DecidableEq

namespace CanonicalHead

/-- The wire structure `canonical_bytes` serializes. -/
def wire (h : CanonicalHead) : HeadWire where
  envelope := headEnvelopeV2
  generation := h.generation
  incarnation := h.incarnation
  lineage := h.lineage.value
  prior := h.prior.map RecordPosition.wire
  recordDigest := h.recordDigest.hex

/-- The wire structure `legacy_v1_bytes` serializes. -/
def wireV1 (h : CanonicalHead) : HeadWireV1 where
  envelope := headEnvelopeV1
  generation := h.generation
  lineage := h.lineage.value
  prior := h.prior.map RecordPosition.wire
  recordDigest := h.recordDigest.hex

/-- `reference`. -/
def reference (h : CanonicalHead) : SafeReference := ⟨h.lineage.value, some h.generation, some h.recordDigest⟩

/-- `position`. -/
def position (h : CanonicalHead) : RecordPosition := ⟨h.generation, h.recordDigest⟩

/-- `same_identity`. -/
def sameIdentity (h other : CanonicalHead) : Bool :=
  h.lineage.sameIdentity other.lineage && h.generation = other.generation && h.incarnation = other.incarnation &&
    h.recordDigest = other.recordDigest && h.prior = other.prior

variable (X : Crates)

/-- `canonical_bytes`. -/
def canonicalBytes (h : CanonicalHead) : Bytes := X.head.toVec h.wire

/-- `legacy_v1_bytes`. -/
def legacyV1Bytes (h : CanonicalHead) : Bytes := X.headV1.toVec h.wireV1

/-- The head's bytes in the format it was read in. -/
def bytesIn (h : CanonicalHead) (legacy : Bool) : Bytes := bif legacy then h.legacyV1Bytes X else h.canonicalBytes X

/-- The fields `from_bytes` reads, and whether the format is the legacy one. -/
def readWire (bytes : Bytes) : Option (UInt64 × UInt64 × Str × Option PositionWire × Bool) :=
  match X.head.fromSlice bytes, X.headV1.fromSlice bytes with
  | some w, v1 =>
    if w.envelope = headEnvelopeV2 then some (w.generation, w.incarnation, w.recordDigest, w.prior, false)
    else match v1 with
      | some w => if w.envelope = headEnvelopeV1 then some (w.generation, 0, w.recordDigest, w.prior, true) else none
      | none => none
  | none, some w => if w.envelope = headEnvelopeV1 then some (w.generation, 0, w.recordDigest, w.prior, true) else none
  | none, none => none

/-- `from_bytes`. -/
def fromBytes (l : KernelLineage) (bytes : Bytes) : Except KernelError CanonicalHead :=
  let malformed := KernelError.stateRecordMalformed (.forLineage l)
  match readWire X bytes with
  | none => .error malformed
  | some (generation, incarnation, recordDigest, priorWire, legacy) =>
    match RecordDigest.parse recordDigest with
    | none => .error malformed
    | some recordDigest =>
      match intoPrior (.stateRecordMalformed (.forDigest l recordDigest)) priorWire with
      | .error e => .error e
      | .ok prior =>
        if priorFits generation prior = false then .error malformed
        else
          let head : CanonicalHead := ⟨l, generation, incarnation, recordDigest, prior⟩
          if head.bytesIn X legacy ≠ bytes then .error malformed
          else .ok head

end CanonicalHead

/-- `HeadRead`. -/
structure HeadRead where
  head : CanonicalHead
  etag : Etag
deriving DecidableEq

end YeetzS3.Lineage
