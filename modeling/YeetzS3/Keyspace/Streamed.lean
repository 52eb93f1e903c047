import YeetzS3.Keyspace.Writes

/-!
# Streamed values

The streaming writer of `value_stream.rs`: begin binds the era and checks the maintenance fence, writes
cut their input into chunks and upload them, seal builds the manifest without publishing it, and commit
is the one conditional PUT that makes the value visible. A call here is one writer from begin to commit,
with the buffers its caller wrote.
-/

namespace YeetzS3.Keyspace

open Conc

variable (O : Outside) (K : AtomicKeyspace)

/-- `CommitReceipt`; a streamed value is always chunked. -/
structure CommitReceipt where
  etag : Etag
  logicalLen : ℕ
  chunkCount : ℕ
deriving DecidableEq

/-- `ValueWriter`: the bound era, and what was written so far. -/
structure ValueWriter where
  incarnation : UInt64
  version : UInt64
  buffer : Bytes := []
  totalLen : ℕ := 0
  entries : List ManifestEntry := []

/-- `fence_present`. -/
def fencePresent : KeyOp Bool := do
  match ← download K.fenceObjectKey with
  | .ok _ => pure true
  | .error .notFound => pure false
  | .error _ => unavailable "maintenance fence read"

/-- `ensure_unfenced`. -/
def ensureUnfenced (key : Str) : KeyOp Unit := do
  if ← fencePresent K then throw (.maintenanceFenced key) else pure ()

/-- `begin_stream_create`. -/
def beginStreamCreate (key : Str) : KeyOp ValueWriter := do
  check (ensureNotReservedKey key)
  let _ ← check (K.objectKey key)
  let incarnation ← currentIncarnation K key
  ensureUnfenced K key
  pure { incarnation := incarnation, version := 0 }

/-- `begin_stream_compare_exchange`. -/
def beginStreamCompareExchange (key : Str) (expectedEtag : Etag) : KeyOp ValueWriter := do
  check (ensureNotReservedKey key)
  let objectKey ← check (K.objectKey key)
  let (incarnation, version) ←
    bindSuccessor O K "keyspace begin_stream_compare_exchange read" key objectKey expectedEtag
  ensureUnfenced K key
  pure { incarnation := incarnation, version := version }

/-- The chunks `bytes` fills. -/
def fullChunks (bytes : Bytes) : List Bytes := (chunksOf bytes).filter (·.length = chunkBytes)

/-- `ValueWriter::poll_write`, over a whole buffer. -/
def writeBuffer (key : Str) (w : ValueWriter) (buf : Bytes) : KeyOp ValueWriter :=
  if w.totalLen + buf.length > maxLogicalBytes then
    throw (.valueTooLarge key (w.totalLen + buf.length) maxLogicalBytes)
  else do
    let full := fullChunks (w.buffer ++ buf)
    putChunks O K key w.incarnation w.version full w.entries.length
    pure { w with
      buffer := (w.buffer ++ buf).drop (chunkBytes * full.length)
      totalLen := w.totalLen + buf.length
      entries := w.entries ++ full.map (hashEntry O) }

/-- The caller's writes, one after another. -/
def writeAll (key : Str) : ValueWriter → List Bytes → KeyOp ValueWriter
  | w, [] => pure w
  | w, buf :: bufs => do
    let w ← writeBuffer O K key w buf
    writeAll key w bufs

/-- The chunks of a value that is complete: a last, shorter one is uploaded now. -/
def sealEntries (key : Str) (w : ValueWriter) : KeyOp (List ManifestEntry) :=
  if w.buffer = [] then pure w.entries
  else do
    putChunks O K key w.incarnation w.version [w.buffer] w.entries.length
    pure (w.entries ++ [hashEntry O w.buffer])

/-- `ValueWriter::seal`. -/
def sealValue (key : Str) (w : ValueWriter) (commitId : Bytes) : KeyOp ValueManifest := do
  let entries ← sealEntries O K key w
  if minChunks ≤ entries.length ∧ entries.length ≤ maxChunks then
    pure (manifestOf O w.incarnation w.version commitId w.totalLen entries)
  else throw (.chunkCountInvalid key entries.length)

/-- `PendingValue::receipt`. -/
def receipt (manifest : ValueManifest) (etag : Etag) : CommitReceipt :=
  ⟨etag, manifest.logicalLen, manifest.entries.length⟩

/-- `finish_create_after_publish`. -/
def finishCreateAfterPublish (key : Str) (manifest : ValueManifest) (publishedEtag : Etag) : KeyOp CommitReceipt := do
  match ← evictStaleEra K key (K.root ++ key) manifest.incarnation manifest.encode with
  | .fresh => pure (receipt manifest publishedEtag)
  | .retry => throw (.staleIncarnation key)
  | .conflict e => throw e

/-- `PendingValue::commit`, bound to a create. -/
def commitCreate (fuel : ℕ) (key : Str) (manifest : ValueManifest) : KeyOp CommitReceipt := do
  let etag ← publishCreate O K fuel key (K.root ++ key) manifest
  finishCreateAfterPublish K key manifest etag

/-- `PendingValue::commit`, bound to a compare-and-swap. -/
def commitCompareExchange (fuel : ℕ) (key : Str) (expectedEtag : Etag) (manifest : ValueManifest) :
    KeyOp CommitReceipt :=
  receipt manifest <$> publishSuccessor O K "keyspace compare_exchange (no etag on manifest publish)" fuel key
    (K.root ++ key) expectedEtag manifest

/-- A streamed create, from `begin_stream_create` to `commit`. -/
def streamCreate (fuel : ℕ) (key : Str) (bufs : List Bytes) (commitId : Bytes) : KeyOp CommitReceipt := do
  let writer ← beginStreamCreate K key
  let writer ← writeAll O K key writer bufs
  let manifest ← sealValue O K key writer commitId
  commitCreate O K fuel key manifest

/-- A streamed compare-and-swap, from `begin_stream_compare_exchange` to `commit`. -/
def streamCompareExchange (fuel : ℕ) (key : Str) (expectedEtag : Etag) (bufs : List Bytes) (commitId : Bytes) :
    KeyOp CommitReceipt := do
  let writer ← beginStreamCompareExchange O K key expectedEtag
  let writer ← writeAll O K key writer bufs
  let manifest ← sealValue O K key writer commitId
  commitCompareExchange O K fuel key expectedEtag manifest

end YeetzS3.Keyspace
