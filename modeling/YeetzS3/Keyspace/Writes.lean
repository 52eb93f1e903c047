import YeetzS3.Keyspace.Reads

/-!
# The writes of `AtomicKeyspace`

Creation, compare-and-swap and destruction of a key, whole-value and streamed. Every control object is
published by one conditional PUT; a publication that finds its lifetime closed afterwards is evicted by
a conditional delete of exactly its own bytes.
-/

namespace YeetzS3.Keyspace

open Conc

variable (O : Outside) (K : AtomicKeyspace)

/-! ### Conflicts and chunks -/

/-- The etag a caller lost to, if it can be read. -/
def observedEtag (objectKey : Str) : KeyOp (Option Etag) := do
  match ← download objectKey with
  | .ok (_, etag) => pure etag
  | .error _ => pure none

/-- The incarnation and version a caller lost to, if they can be read. -/
def observedEra (key objectKey : Str) : KeyOp (Option UInt64 × Option UInt64) := do
  match ← download objectKey with
  | .ok (bytes, _) =>
    match ControlEnvelope.decode O key bytes with
    | .ok control => pure (some control.incarnation, some control.version)
    | .error _ => pure (none, none)
  | .error _ => pure (none, none)

/-- `cas_conflict`: the error it builds. -/
def casConflict (key : Str) (expectedEtag : Etag) : KeyOp KeyspaceError := do
  match K.objectKey key with
  | .error _ => pure (.invalidIdentifier "" key)
  | .ok objectKey =>
    let observed ← observedEtag objectKey
    let (observedIncarnation, observedVersion) ← observedEra O key objectKey
    pure (.preconditionFailed key expectedEtag observed observedIncarnation observedVersion)

/-- `verify_chunk`. -/
def verifyChunk (path key : Str) (entry : ManifestEntry) (ordinal : ℕ) : KeyOp Unit := do
  match ← download path with
  | .ok (bytes, _) =>
    if bytes.length ≠ entry.encodedLen ∨ O.sha256 bytes ≠ entry.sha256 then throw (.chunkIntegrity key ordinal)
    else pure ()
  | .error .notFound => throw (.chunkMissing key ordinal)
  | .error _ => unavailable "keyspace chunk verification read"

/-- `put_chunk`, with `tries` uploads left: whatever an upload failed with, an exact read settles it. -/
def putChunk (path key : Str) (entry : ManifestEntry) (ordinal : ℕ) (bytes : Bytes) : ℕ → KeyOp Unit
  | 0 => unavailable "keyspace chunk upload budget exhausted"
  | tries + 1 => do
    match ← uploadConditional path bytes none with
    | .ok _ => pure ()
    | .error _ =>
      match ← Op.attempt (verifyChunk O path key entry ordinal) with
      | .ok () => pure ()
      | .error (.chunkMissing _ _) => putChunk path key entry ordinal bytes tries
      | .error e => throw e

/-- Upload the chunks of a value at one generation, chunk `ordinal` first. -/
def putChunks (key : Str) (incarnation version : UInt64) : List Bytes → ℕ → KeyOp Unit
  | [], _ => pure ()
  | bytes :: rest, ordinal => do
    let entry := hashEntry O bytes
    putChunk O (chunkObjectKey K.ns key incarnation version entry.digestHex) key entry ordinal bytes 4
    putChunks key incarnation version rest (ordinal + 1)

/-- The chunks of a value: `chunkBytes` each, the last one shorter. -/
def chunksOf (value : Bytes) : List Bytes := value.toChunks chunkBytes

/-- The manifest of a value's chunks. -/
def manifestOf (incarnation version : UInt64) (commitId : Bytes) (logicalLen : ℕ) (entries : List ManifestEntry) :
    ValueManifest :=
  ⟨incarnation, version, commitId, logicalLen, computeValueRoot O logicalLen chunkBytes entries, chunkBytes, entries⟩

/-- `stage_chunks`. -/
def stageChunks (key : Str) (value : Bytes) (incarnation version : UInt64) (commitId : Bytes) :
    KeyOp ValueManifest := do
  putChunks O K key incarnation version (chunksOf value) 0
  pure (manifestOf O incarnation version commitId value.length ((chunksOf value).map (hashEntry O)))

/-! ### After publication -/

/-- `ensure_open_value_era`. -/
def ensureOpenValueEra (key : Str) (boundIncarnation : UInt64) : KeyOp Unit := do
  if (← currentIncarnation K key) = boundIncarnation then pure ()
  else throw (.staleIncarnation key)

/-- `finish_value_cas_after_publish`. -/
def finishValueCasAfterPublish (key : Str) (boundIncarnation : UInt64) (publishedEtag : Etag) : KeyOp Etag := do
  if (← currentIncarnation K key) = boundIncarnation then pure publishedEtag
  else do
    let objectKey ← check (K.objectKey key)
    match ← deleteConditional objectKey publishedEtag with
    | .ok () | .error .notFound | .error .preconditionFailed => throw (.staleIncarnation key)
    | .error .failed => unavailable "keyspace compare_exchange (closed-era eviction)"

/-- `Ambiguity`. -/
inductive Ambiguity where
  | landed (etag : Option Etag)
  | lostConflict
  | ambiguous
deriving DecidableEq

/-- `adjudicate_manifest_put`. -/
def adjudicateManifestPut (fuel : ℕ) (key objectKey : Str) (manifest : ValueManifest) : KeyOp Ambiguity := do
  match ← seqRetired K fuel key with
  | some _ => pure .ambiguous
  | none =>
    match ← download objectKey with
    | .error .notFound => pure .ambiguous
    | .error _ => unavailable "keyspace ambiguous commit reread"
    | .ok (data, etag) => do
      let control ← check (ControlEnvelope.decode O key data)
      if control.incarnation = manifest.incarnation ∧ control.version = manifest.version then
        match control with
        | .chunked observed => if observed.commitId = manifest.commitId then pure (.landed etag) else pure .lostConflict
        | .inline _ => pure .lostConflict
      else pure .ambiguous

/-- How a create goes on once its publication was checked: `StaleEra`. -/
inductive StaleEra where
  | fresh
  | retry
  | conflict (error : KeyspaceError)
deriving DecidableEq

/-- The eviction of a create's own stale bytes, after the counter was seen to have moved. -/
def evictOwn (key objectKey : Str) (encoded : Bytes) : KeyOp StaleEra := do
  match ← download objectKey with
  | .ok (_, none) => unavailable "keyspace create (stale-era eviction: no etag)"
  | .ok (data, some observedEtag) =>
    if data = encoded then
      match ← deleteConditional objectKey observedEtag with
      | .ok () | .error .notFound => pure .retry
      | .error .preconditionFailed => pure (.conflict (.alreadyExists key))
      | .error .failed => unavailable "keyspace create (stale-era eviction)"
    else pure (.conflict (.alreadyExists key))
  | .error .notFound => pure .retry
  | .error _ => unavailable "keyspace create (stale-era eviction check)"

/-- `evict_stale_era`, over the bytes the create published at `incarnation`. -/
def evictStaleEra (key objectKey : Str) (incarnation : UInt64) (encoded : Bytes) : KeyOp StaleEra := do
  if (← currentIncarnation K key) = incarnation then pure .fresh
  else evictOwn key objectKey encoded

/-! ### Whole-value writes -/

/-- The attempts of the inline `create`. -/
def createInline (key objectKey : Str) (value : Bytes) : ℕ → KeyOp Unit
  | 0 => unavailable "keyspace create (incarnation contention)"
  | tries + 1 => do
    let incarnation ← currentIncarnation K key
    let encoded := (ValueEnvelope.mk incarnation 0 value).encode
    match ← uploadConditional objectKey encoded none with
    | .ok _ =>
      match ← evictStaleEra K key objectKey incarnation encoded with
      | .fresh => pure ()
      | .retry => createInline key objectKey value tries
      | .conflict e => throw e
    | .error .preconditionFailed => throw (.alreadyExists key)
    | .error _ => unavailable "keyspace create"

/-- The publication of a created manifest: `create_chunked` and a streamed `commit` publish alike. -/
def publishCreate (fuel : ℕ) (key objectKey : Str) (manifest : ValueManifest) : KeyOp Etag := do
  match ← uploadConditional objectKey manifest.encode none with
  | .ok (some etag) => pure etag
  | .ok none => unavailable "keyspace create (no etag on manifest publish)"
  | .error .preconditionFailed => throw (.alreadyExists key)
  | .error _ => do
    match ← adjudicateManifestPut O K fuel key objectKey manifest with
    | .landed (some etag) => pure etag
    | .landed none => unavailable "keyspace create (ambiguous manifest commit: no etag)"
    | .lostConflict => throw (.alreadyExists key)
    | .ambiguous => unavailable "keyspace create (ambiguous manifest commit)"

/-- `create_chunked`; attempt `n` mints `commitIds n`. -/
def createChunked (fuel : ℕ) (key objectKey : Str) (value : Bytes) (commitIds : ℕ → Bytes) : ℕ → KeyOp Unit
  | 0 => unavailable "keyspace create (incarnation contention)"
  | tries + 1 => do
    let incarnation ← currentIncarnation K key
    let manifest ← stageChunks O K key value incarnation 0 (commitIds tries)
    let _ ← publishCreate O K fuel key objectKey manifest
    match ← evictStaleEra K key objectKey manifest.incarnation manifest.encode with
    | .fresh => pure ()
    | .retry => createChunked fuel key objectKey value commitIds tries
    | .conflict e => throw e

/-- `create`. -/
def create (fuel : ℕ) (key : Str) (value : Bytes) (commitIds : ℕ → Bytes) : KeyOp Unit := do
  check (ensureNotReservedKey key)
  if value.length > maxLogicalBytes then throw (.valueTooLarge key value.length maxLogicalBytes)
  else do
    let objectKey ← check (K.objectKey key)
    if value.length > inlineMax then createChunked O K fuel key objectKey value commitIds 8
    else createInline K key objectKey value 8

/-- The publication of a successor's manifest and its check: `compare_exchange_chunked` and a streamed
`commit` publish alike, up to the operation named when no etag is reported. -/
def publishSuccessor (noEtag : String) (fuel : ℕ) (key objectKey : Str) (expectedEtag : Etag)
    (manifest : ValueManifest) : KeyOp Etag := do
  ensureOpenValueEra K key manifest.incarnation
  match ← uploadConditional objectKey manifest.encode (some expectedEtag) with
  | .ok (some etag) => finishValueCasAfterPublish K key manifest.incarnation etag
  | .ok none => unavailable noEtag
  | .error .preconditionFailed => do throw (← casConflict O K key expectedEtag)
  | .error _ => do
    match ← adjudicateManifestPut O K fuel key objectKey manifest with
    | .landed (some etag) => finishValueCasAfterPublish K key manifest.incarnation etag
    | .landed none => unavailable "keyspace compare_exchange (ambiguous manifest commit: no etag)"
    | .lostConflict => do throw (← casConflict O K key expectedEtag)
    | .ambiguous => unavailable "keyspace compare_exchange (ambiguous manifest commit)"

/-- `compare_exchange_chunked`. -/
def compareExchangeChunked (fuel : ℕ) (key objectKey : Str) (expectedEtag : Etag)
    (incarnation nextVersion : UInt64) (value commitId : Bytes) : KeyOp Etag := do
  let manifest ← stageChunks O K key value incarnation nextVersion commitId
  publishSuccessor O K "keyspace compare_exchange (no etag)" fuel key objectKey expectedEtag manifest

/-- The publication of an inline successor. -/
def compareExchangeInline (key objectKey : Str) (expectedEtag : Etag) (incarnation nextVersion : UInt64)
    (value : Bytes) : KeyOp Etag := do
  match ← uploadConditional objectKey (ValueEnvelope.mk incarnation nextVersion value).encode (some expectedEtag) with
  | .ok (some etag) => finishValueCasAfterPublish K key incarnation etag
  | .ok none => unavailable "keyspace compare_exchange (no etag)"
  | .error .preconditionFailed => do throw (← casConflict O K key expectedEtag)
  | .error _ => unavailable "keyspace compare_exchange"

/-- What a CAS binds before it publishes: the observed control, still in an open lifetime, and the version
after it. `compare_exchange` and `begin_stream_compare_exchange` begin alike, up to the operation named
when the read fails. -/
def bindSuccessor (operation : String) (key objectKey : Str) (expectedEtag : Etag) : KeyOp (UInt64 × UInt64) := do
  match ← download objectKey with
  | .error .notFound => throw (.preconditionFailed key expectedEtag none none none)
  | .error _ => unavailable operation
  | .ok (_, none) => unavailable (operation ++ " (no etag reported)")
  | .ok (data, some observedEtag) =>
    if observedEtag ≠ expectedEtag then do throw (← casConflict O K key expectedEtag)
    else do
      let control ← check (ControlEnvelope.decode O key data)
      ensureOpenValueEra K key control.incarnation
      match checkedSucc control.version with
      | none => throw (.versionExhausted key)
      | some nextVersion => pure (control.incarnation, nextVersion)

/-- `compare_exchange`. -/
def compareExchange (fuel : ℕ) (key : Str) (expectedEtag : Etag) (value commitId : Bytes) : KeyOp Etag := do
  check (ensureNotReservedKey key)
  if value.length > maxLogicalBytes then throw (.valueTooLarge key value.length maxLogicalBytes)
  else do
    let objectKey ← check (K.objectKey key)
    let (incarnation, nextVersion) ← bindSuccessor O K "keyspace compare_exchange read" key objectKey expectedEtag
    if value.length > inlineMax then
      compareExchangeChunked O K fuel key objectKey expectedEtag incarnation nextVersion value commitId
    else compareExchangeInline O K key objectKey expectedEtag incarnation nextVersion value

/-! ### Destruction -/

/-- `prepare_destroy`, at clock reading `ts`. -/
def prepareDestroy (key cause actor : Str) (ts : UInt64) : KeyOp (Option (Str × Etag)) := do
  let objectKey ← check (K.objectKey key)
  match ← readControlEraWithEtag O K key with
  | none => pure none
  | some (incarnation, version, observedEtag) => do
    let tombstone := Tombstone.mint incarnation version cause actor ts
    match ← uploadConditional (K.root ++ tombstoneKey key) (O.tombstoneJson tombstone) none with
    | .ok _ | .error .preconditionFailed =>
      let _ ← bumpIncarnation K key
      pure (some (objectKey, observedEtag))
    | .error _ => unavailable "keyspace destroy: tombstone create"

/-- `destroy`. -/
def destroy (key cause actor : Str) (ts : UInt64) : KeyOp Unit := do
  match ← prepareDestroy O K key cause actor ts with
  | none => pure ()
  | some (objectKey, observedEtag) =>
    match ← deleteConditional objectKey observedEtag with
    | .ok () | .error .notFound => pure ()
    | .error .preconditionFailed => do throw (← casConflict O K key observedEtag)
    | .error .failed => unavailable "keyspace destroy: conditional delete"

end YeetzS3.Keyspace
