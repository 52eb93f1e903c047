import YeetzS3.Json
import YeetzS3.Keyspace.Streamed

/-!
# The fence, the inventory and the sweep of chunks

The maintenance of `value_stream.rs`: one fence object per namespace that turns new streamed writers away, and the
walks over the namespace's chunk objects that meter or delete the ones no current manifest references.
-/

namespace YeetzS3.Keyspace

open Conc

variable (O : Outside) (K : AtomicKeyspace)

/-! ### The fence -/

/-- `set_maintenance_fence`; every erection mints its own bytes. -/
def setMaintenanceFence (commitId : Bytes) : KeyOp Unit := do
  match ← uploadConditional K.fenceObjectKey (ValueEnvelope.mk 0 0 commitId).encode none with
  | .ok _ | .error .preconditionFailed => pure ()
  | .error _ => unavailable "keyspace set_maintenance_fence"

/-- `release_observed_maintenance_fence`. -/
def releaseObservedMaintenanceFence (etag : Etag) : KeyOp Unit := do
  match ← deleteConditional K.fenceObjectKey etag with
  | .ok () | .error .notFound => pure ()
  | .error .preconditionFailed => throw (.maintenanceFenceConflict K.ns)
  | .error .failed => unavailable "keyspace release_maintenance_fence"

/-- `release_maintenance_fence`. -/
def releaseMaintenanceFence : KeyOp Unit := do
  match ← download K.fenceObjectKey with
  | .ok (_, some etag) => releaseObservedMaintenanceFence K etag
  | .ok (_, none) => unavailable "keyspace release_maintenance_fence (no etag)"
  | .error .notFound => pure ()
  | .error _ => unavailable "keyspace release_maintenance_fence read"

/-! ### Chunk paths -/

/-- `is_lower_hex`. -/
def isLowerHex (value : Str) : Bool :=
  value.all fun c => (48 ≤ c.toNat && c.toNat ≤ 57) || (97 ≤ c.toNat && c.toNat ≤ 102)

/-- `ChunkObjectPath`. -/
structure ChunkObjectPath where
  ns : Str
  logicalKey : Str
  incarnation : UInt64
  version : UInt64
  digestHex : Str
deriving DecidableEq

/-- The last four segments of a chunk path, read: the namespace is what is before them. -/
def parseChunkSegments (ns : List Str) (encodedKey incarnation version digestHex : Str) : Option ChunkObjectPath := do
  let version ← parseSeqComponent version
  let incarnation ← parseSeqComponent incarnation
  guard (isLowerHex digestHex ∧ digestHex.length = 64)
  guard (encodedKey ≠ [] ∧ encodedKey.length % 2 = 0 ∧ isLowerHex encodedKey)
  let logicalKey ← (hexDecode encodedKey).bind Json.ofUtf8
  let ns := ['/'].intercalate ns
  guard (validateIdentifier "chunk namespace" ns = .ok ())
  guard (validateIdentifier "chunk logical key" logicalKey = .ok ())
  some ⟨ns, logicalKey, incarnation, version, digestHex⟩

/-- `parse_chunk_object_key`. -/
def parseChunkObjectKey (objectKey : Str) : Option ChunkObjectPath := do
  let rest ← stripPrefix "keyspace-chunks/v1/".toList objectKey
  match (rest.splitOn '/').reverse with
  | digestHex :: version :: incarnation :: encodedKey :: n :: ns =>
    parseChunkSegments (n :: ns).reverse encodedKey incarnation version digestHex
  | _ => none

/-! ### Classification -/

/-- `PageClassification`. -/
structure PageClassification where
  referencedCount : ℕ
  orphanCandidates : List Str
  unresolvedCount : ℕ
deriving DecidableEq

/-- `chunk_root_prefix`. -/
def AtomicKeyspace.chunkRootPrefix (K : AtomicKeyspace) : Str := "keyspace-chunks/v1/".toList ++ K.ns ++ ['/']

/-- `list_chunk_page`. -/
def listChunkPage (after : Option Str) : KeyOp (List (Str × ℕ)) := do
  match ← listPrefixAfterWithSizes K.chunkRootPrefix after 1000 with
  | .ok page => pure page
  | .error _ => unavailable "keyspace chunk root list"

/-- The logical key of a chunk path of this namespace. -/
def logicalKeyOf (path : Str) : Option Str :=
  match parseChunkObjectKey path with
  | some parsed => if parsed.ns = K.ns then some parsed.logicalKey else none
  | none => none

/-- The chunk paths of a page by logical key, in the order of the keys. -/
def byKey (paths : List Str) : List (Str × List Str) :=
  ((paths.filterMap (logicalKeyOf K)).dedup.insertionSort (· ≤ ·)).map fun key =>
    (key, paths.filter fun path => logicalKeyOf K path = some key)

/-- The chunk paths the current control of `key` references; `none` when that cannot be told. -/
def referencedChunks (rootTrimFloor : Option UInt64) (key : Str) : KeyOp (Option (List Str)) := do
  let controlObjectKey ← check (K.objectKey key)
  match seqRetiredAtFloor key rootTrimFloor with
  | some _ => pure (some [])
  | none =>
    match ← download controlObjectKey with
    | .ok (bytes, _) =>
      match ControlEnvelope.decode O key bytes with
      | .ok (.chunked manifest) => pure (some (manifest.entries.map fun entry =>
          chunkObjectKey K.ns key manifest.incarnation manifest.version entry.digestHex))
      | .ok (.inline _) => pure (some [])
      | .error _ => pure none
    | .error .notFound => pure (some [])
    | .error _ => pure none

/-- The classification of the chunks of every key of a page, one control read each. -/
def classifyKeys (rootTrimFloor : Option UInt64) : List (Str × List Str) → PageClassification → KeyOp PageClassification
  | [], acc => pure acc
  | (key, chunkKeys) :: groups, acc => do
    match ← referencedChunks O K rootTrimFloor key with
    | some referenced => classifyKeys rootTrimFloor groups { acc with
        referencedCount := acc.referencedCount + (chunkKeys.filter (· ∈ referenced)).length
        orphanCandidates := acc.orphanCandidates ++ chunkKeys.filter (· ∉ referenced) }
    | none => classifyKeys rootTrimFloor groups { acc with unresolvedCount := acc.unresolvedCount + chunkKeys.length }

/-- `classify_chunk_page`. -/
def classifyChunkPage (fuel : ℕ) (paths : List Str) : KeyOp PageClassification := do
  let unparsed := (paths.filter fun path => logicalKeyOf K path = none).length
  let rootTrimFloor ← trimFloor K fuel []
  classifyKeys O K rootTrimFloor (byKey K paths) ⟨0, [], unparsed⟩

/-! ### Inventory and sweep -/

/-- `ChunkInventory`. -/
structure ChunkInventory where
  listedChunks : ℕ := 0
  referencedChunks : ℕ := 0
  candidateOrphanChunks : ℕ := 0
  unresolvedChunks : ℕ := 0
  listedBytes : ℕ := 0
  candidateOrphanBytes : ℕ := 0
deriving DecidableEq

/-- What a page adds to the inventory. -/
def ChunkInventory.add (i : ChunkInventory) (page : List (Str × ℕ)) (c : PageClassification) : ChunkInventory where
  listedChunks := i.listedChunks + page.length
  referencedChunks := i.referencedChunks + c.referencedCount
  candidateOrphanChunks := i.candidateOrphanChunks + c.orphanCandidates.length
  unresolvedChunks := i.unresolvedChunks + c.unresolvedCount
  listedBytes := i.listedBytes + (page.map (·.2)).sum
  candidateOrphanBytes := i.candidateOrphanBytes +
    (c.orphanCandidates.map fun orphan => ((page.find? (·.1 = orphan)).map (·.2)).getD 0).sum

/-- The paging loop of `chunk_inventory`; `floorFuel` is for the floor's own pages. -/
def inventoryLoop (floorFuel : ℕ) : ℕ → Option Str → ChunkInventory → KeyOp ChunkInventory
  | 0, _, _ => Op.stop
  | fuel + 1, after, inventory => do
    let page ← listChunkPage K after
    if page = [] then pure inventory
    else
      let classification ← classifyChunkPage O K floorFuel (page.map (·.1))
      let inventory := inventory.add page classification
      if page.length < 1000 then pure inventory
      else inventoryLoop floorFuel fuel (page.getLast?.map (·.1)) inventory

/-- `chunk_inventory`. -/
def chunkInventory (fuel : ℕ) : KeyOp ChunkInventory := inventoryLoop O K fuel fuel none {}

/-- `ChunkSweepReport`. -/
structure ChunkSweepReport where
  examined : ℕ := 0
  deleted : ℕ := 0
  remaining : ℕ := 0
  retained : ℕ := 0
deriving DecidableEq

/-- The deletes of a page's orphans. -/
def deleteOrphans : List Str → ChunkSweepReport → KeyOp ChunkSweepReport
  | [], report => pure report
  | chunkKey :: chunkKeys, report => do
    match ← deleteObject chunkKey with
    | .ok () => deleteOrphans chunkKeys { report with deleted := report.deleted + 1 }
    | .error _ => deleteOrphans chunkKeys { report with remaining := report.remaining + 1 }

/-- The paging loop of `sweep_chunks`. -/
def sweepLoop (floorFuel : ℕ) : ℕ → Option Str → ChunkSweepReport → KeyOp ChunkSweepReport
  | 0, _, _ => Op.stop
  | fuel + 1, after, report => do
    let page ← listChunkPage K after
    if page = [] then pure report
    else
      let classification ← classifyChunkPage O K floorFuel (page.map (·.1))
      let report ← deleteOrphans classification.orphanCandidates { report with
        examined := report.examined + page.length
        retained := report.retained + classification.referencedCount
        remaining := report.remaining + classification.unresolvedCount }
      if page.length < 1000 then pure report else sweepLoop floorFuel fuel (page.getLast?.map (·.1)) report

/-- `sweep_chunks`. -/
def sweepChunks (fuel : ℕ) : KeyOp ChunkSweepReport := do
  if ← fencePresent K then sweepLoop O K fuel fuel none {} else throw (.maintenanceFenceRequired K.ns)

end YeetzS3.Keyspace
