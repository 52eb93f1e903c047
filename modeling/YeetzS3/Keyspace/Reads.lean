import YeetzS3.Counter
import YeetzS3.Keyspace.Keys

/-!
# The reads of `AtomicKeyspace`

`atomic_keyspace.rs` and `value_stream.rs`, operation by operation, as programs of store requests; the
writes are in the next module. Chunk transfers are written one after another where the source keeps up
to four in flight; chunk objects lie outside the keyspace root. A loop without a bound of its own takes
its fuel as an argument.
-/

namespace YeetzS3.Keyspace

open Conc

/-- A keyspace operation. -/
abbrev KeyOp (α : Type) := StoreOp KeyspaceError α

/-- A pure check inside an operation. -/
def check {α : Type} : Except KeyspaceError α → KeyOp α
  | .ok a => pure a
  | .error e => throw e

/-- `KeyspaceError::Unavailable`. -/
def unavailable {α : Type} (operation : String) : KeyOp α := throw (.unavailable operation)

/-- `KeyState`. -/
inductive KeyState where
  | present (value : Bytes) (etag : Etag)
  | destroyed (tombstone : Tombstone)
  | offsetExpired (firstRetained : UInt64)
  | absent
deriving DecidableEq

/-- `StreamKeyState`: a reader is the control it will fetch the chunks of. -/
inductive StreamKeyState where
  | present (control : ControlEnvelope) (etag : Etag)
  | destroyed (tombstone : Tombstone)
  | offsetExpired (firstRetained : UInt64)
  | absent
deriving DecidableEq

variable (O : Outside) (K : AtomicKeyspace)

/-! ### Counters -/

/-- The errors of the keyspace's counter of `key`. -/
def counterErrors (key : Str) : CounterErrors KeyspaceError where
  read := .unavailable "incarnation counter read"
  readMalformed := .valueEnvelopeMalformed (incarnationKey key)
  bumpNoEtag := .unavailable "incarnation counter read (no etag)"
  bumpMalformed := .valueEnvelopeMalformed (incarnationKey key)
  bumpExhausted := .versionExhausted key
  bumpPut := .unavailable "incarnation counter bump"
  bumpCreate := .unavailable "incarnation counter create"
  bumpRead := .unavailable "incarnation counter read"
  bumpBudget := .unavailable "incarnation counter bump budget exhausted"

/-- `AtomicKeyspace::current_incarnation`. -/
def currentIncarnation (key : Str) : KeyOp UInt64 := readCounter (counterErrors key) (K.root ++ incarnationKey key)

/-- `AtomicKeyspace::bump_incarnation`. -/
def bumpIncarnation (key : Str) : KeyOp UInt64 := bumpCounter (counterErrors key) (K.root ++ incarnationKey key) 8

/-! ### Reads -/

/-- `fetch_chunk`. -/
def fetchChunk (key : Str) (incarnation version : UInt64) (entry : ManifestEntry) (ordinal : ℕ) : KeyOp Bytes := do
  match ← download (chunkObjectKey K.ns key incarnation version entry.digestHex) with
  | .ok (bytes, _) =>
    if bytes.length ≠ entry.encodedLen ∨ O.sha256 bytes ≠ entry.sha256 then throw (.chunkIntegrity key ordinal)
    else pure bytes
  | .error .notFound => throw (.chunkMissing key ordinal)
  | .error _ => unavailable "keyspace chunk fetch"

/-- `fetch_all_chunks`, from chunk `ordinal` on. -/
def fetchAllChunks (key : Str) (incarnation version : UInt64) : List ManifestEntry → ℕ → KeyOp Bytes
  | [], _ => pure []
  | entry :: entries, ordinal => do
    let bytes ← fetchChunk O K key incarnation version entry ordinal
    let rest ← fetchAllChunks key incarnation version entries (ordinal + 1)
    pure (bytes ++ rest)

/-- `collect_value`. -/
def collectValue (key : Str) (controlBytes : Bytes) : KeyOp Bytes := do
  match ← check (ControlEnvelope.decode O key controlBytes) with
  | .inline envelope => pure envelope.payload
  | .chunked manifest => fetchAllChunks O K key manifest.incarnation manifest.version manifest.entries 0

/-- `get`. -/
def get (key : Str) : KeyOp (Option Bytes) := do
  let objectKey ← check (K.objectKey key)
  match ← download objectKey with
  | .ok (bytes, _) => some <$> collectValue O K key bytes
  | .error .notFound => pure none
  | .error _ => unavailable "keyspace get"

/-- `get_with_etag`. -/
def getWithEtag (key : Str) : KeyOp (Option (Bytes × Etag)) := do
  let objectKey ← check (K.objectKey key)
  match ← download objectKey with
  | .ok (data, some etag) => do
    let value ← collectValue O K key data
    pure (some (value, etag))
  | .ok (_, none) => unavailable "keyspace get_with_etag (no etag reported)"
  | .error .notFound => pure none
  | .error _ => unavailable "keyspace get_with_etag"

/-- `read_control_era_with_etag`. -/
def readControlEraWithEtag (key : Str) : KeyOp (Option (UInt64 × UInt64 × Etag)) := do
  let objectKey ← check (K.objectKey key)
  match ← download objectKey with
  | .ok (data, some etag) => do
    let control ← check (ControlEnvelope.decode O key data)
    pure (some (control.incarnation, control.version, etag))
  | .ok (_, none) => unavailable "keyspace control era read (no etag)"
  | .error .notFound => pure none
  | .error _ => unavailable "keyspace control era read"

/-- `list_after`. -/
def listAfter (startAfter : Option Str) (limit : ℕ) : KeyOp (List Str) := do
  if limit = 0 then pure []
  else do
    check (startAfter.elim (.ok ()) (validateIdentifier "start_after"))
    match ← listPrefixAfter K.root (startAfter.map (K.root ++ ·)) limit with
    | .ok keys => pure (keys.filterMap (stripPrefix K.root))
    | .error _ => unavailable "keyspace list_after"

/-- One page of the walk over a scope's certificates: `inl floor` when the walk ends in it, else where to
go on and the floor so far. -/
def floorPage (certPrefix : Str) : List Str → Option Str → Option UInt64 → Option UInt64 ⊕ (Option Str × Option UInt64)
  | [], after, floor => .inr (after, floor)
  | key :: keys, _, floor =>
    match stripPrefix certPrefix key with
    -- siblings between `{scope}/trims` and `{scope}/trims/` are stepped over
    | none => if key < certPrefix then floorPage certPrefix keys (some key) floor else .inl floor
    | some rest =>
      match parseSeqComponent rest with
      | some seq => floorPage certPrefix keys (some key) (some (floor.elim seq (max · seq)))
      | none => floorPage certPrefix keys (some key) floor

/-- The paging loop of `trim_floor`. -/
def trimFloorLoop (certPrefix : Str) : ℕ → Option Str → Option UInt64 → KeyOp (Option UInt64)
  | 0, _, _ => Op.stop
  | fuel + 1, after, floor => do
    let keys ← listAfter K after 1000
    match floorPage certPrefix keys after floor with
    | .inl final => pure final
    | .inr (last, so_far) => if keys.length < 1000 then pure so_far else trimFloorLoop certPrefix fuel last so_far

/-- `trim_floor`. -/
def trimFloor (fuel : ℕ) (scope : Str) : KeyOp (Option UInt64) := do
  let certPrefix ← check (trimCertPrefix scope)
  let start := if scope = [] then "trims".toList else scope ++ '/' :: "trims".toList
  trimFloorLoop K certPrefix fuel (some start) none

/-- `seq_retired`. -/
def seqRetired (fuel : ℕ) (key : Str) : KeyOp (Option UInt64) := do
  let floor ← trimFloor K fuel []
  pure (seqRetiredAtFloor key floor)

/-- The tail of both existence reads: no value, so the tombstone decides. -/
def readTombstone (key : Str) (operation : String) : KeyOp (Option Tombstone) := do
  match ← download (K.root ++ tombstoneKey key) with
  | .ok (bytes, _) => some <$> check (Tombstone.decode O bytes)
  | .error .notFound => pure none
  | .error _ => unavailable operation

/-- `read_state`. -/
def readState (fuel : ℕ) (key : Str) : KeyOp KeyState := do
  let _ ← check (K.objectKey key)
  match ← seqRetired K fuel key with
  | some firstRetained => pure (.offsetExpired firstRetained)
  | none =>
    match ← getWithEtag O K key with
    | some (value, etag) => pure (.present value etag)
    | none =>
      match ← readTombstone O K key "read_state: tombstone" with
      | some tombstone => pure (.destroyed tombstone)
      | none => pure .absent

/-- `open_stream`: the control is fetched, its chunks are not. -/
def openStream (key : Str) : KeyOp (Option (ControlEnvelope × Etag)) := do
  let objectKey ← check (K.objectKey key)
  match ← download objectKey with
  | .ok (data, some etag) => do
    let control ← check (ControlEnvelope.decode O key data)
    pure (some (control, etag))
  | .ok (_, none) => unavailable "keyspace open_stream (no etag reported)"
  | .error .notFound => pure none
  | .error _ => unavailable "keyspace open_stream control read"

/-- `read_state_stream`. -/
def readStateStream (fuel : ℕ) (key : Str) : KeyOp StreamKeyState := do
  let _ ← check (K.objectKey key)
  match ← seqRetired K fuel key with
  | some firstRetained => pure (.offsetExpired firstRetained)
  | none =>
    match ← openStream O K key with
    | some (control, etag) => pure (.present control etag)
    | none =>
      match ← readTombstone O K key "read_state_stream: tombstone" with
      | some tombstone => pure (.destroyed tombstone)
      | none => pure .absent

end YeetzS3.Keyspace
