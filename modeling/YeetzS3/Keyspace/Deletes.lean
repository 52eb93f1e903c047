import YeetzS3.Keyspace.Writes

/-!
# Deletes and trims

The raw deletes of `AtomicKeyspace`, which leave no tombstone, and the certified trim of a scope: a certificate at
`{scope}/trims/{seq}` is created once, the largest one is the scope's floor, and `delete_below` sweeps what lies
below it.
-/

namespace YeetzS3.Keyspace

open Conc

variable (O : Outside) (K : AtomicKeyspace)

/-! ### One key -/

/-- `delete`. -/
def delete (key : Str) : KeyOp Unit := do
  check (ensureNotReservedKey key)
  let objectKey ← check (K.objectKey key)
  match ← deleteObject objectKey with
  | .ok () => pure ()
  | .error _ => unavailable "keyspace delete"

/-- `delete_if_match`. -/
def deleteIfMatch (key : Str) (expectedEtag : Etag) : KeyOp Unit := do
  check (ensureNotReservedKey key)
  let objectKey ← check (K.objectKey key)
  match ← deleteConditional objectKey expectedEtag with
  | .ok () => pure ()
  | .error .preconditionFailed =>
    let observed ← observedEtag objectKey
    let (observedIncarnation, observedVersion) ← observedEra O key objectKey
    throw (.preconditionFailed key expectedEtag observed observedIncarnation observedVersion)
  | .error .notFound => throw (.preconditionFailed key expectedEtag none none none)
  | .error .failed => unavailable "keyspace delete_if_match"

/-! ### Many keys -/

/-- `DeleteOutcome`. -/
structure DeleteOutcome where
  key : Str
  deleted : Bool
deriving DecidableEq

/-- The keys of a batch, checked before the first delete. -/
def checkBatch : List Str → Except KeyspaceError Unit
  | [] => .ok ()
  | key :: keys =>
    match ensureNotReservedKey key with
    | .error e => .error e
    | .ok () =>
      match K.objectKey key with
      | .error e => .error e
      | .ok _ => checkBatch keys

/-- The deletes of a batch: a failed one is reported and the rest go on. -/
def deleteEach : List Str → KeyOp (List DeleteOutcome)
  | [] => pure []
  | key :: keys => do
    let deleted ← match ← Op.attempt (delete K key) with
      | .ok () => pure true
      | .error (.unavailable _) => pure false
      | .error e => throw e
    let outcomes ← deleteEach keys
    pure (⟨key, deleted⟩ :: outcomes)

/-- `delete_many`. -/
def deleteMany (keys : List Str) : KeyOp (List DeleteOutcome) := do
  check (checkBatch K keys)
  deleteEach K keys

/-! ### Batched deletes -/

/-- `DELETE_OBJECTS_MAX_KEYS`. -/
def deleteObjectsMaxKeys : ℕ := 1000
/-- `DELETE_OBJECTS_MAX_INPUT`. -/
def deleteObjectsMaxInput : ℕ := 100000

/-- `DeleteObjectsInputError`. -/
inductive DeleteObjectsInputError where
  | tooManyKeys (provided max : ℕ)
  | key (index : ℕ) (key : Str) (source : KeyspaceError)
  | duplicate (key : Str) (firstIndex duplicateIndex : ℕ)
deriving DecidableEq

/-- `DeleteObjectsUnconfirmedReason`. -/
inductive DeleteObjectsUnconfirmedReason where
  | requestFailed
  | invalidResponse
deriving DecidableEq

/-- `DeleteObjectsFailure`; a diagnostic is the client's own. -/
inductive DeleteObjectsFailure where
  | rejected (diagnostic : ObjectDeleteDiagnostic)
  | unconfirmed (reason : DeleteObjectsUnconfirmedReason) (diagnostic : ObjectDeleteDiagnostic)
  | unsupported (diagnostic : ObjectDeleteDiagnostic)
  | notAttempted
deriving DecidableEq

/-- `DeleteObjectsOutcome`. -/
structure DeleteObjectsOutcome where
  key : Str
  result : Except DeleteObjectsFailure Unit

/-- The admission of the keys from index `index` on, after the keys `seen`. -/
def admitObjects (seen : List Str) : List Str → Except DeleteObjectsInputError Unit
  | [] => .ok ()
  | key :: keys =>
    match ensureNotReservedKey key with
    | .error e => .error (.key seen.length key e)
    | .ok () =>
      match K.objectKey key with
      | .error e => .error (.key seen.length key e)
      | .ok _ =>
        if key ∈ seen then .error (.duplicate key (seen.idxOf key) seen.length)
        else admitObjects (seen ++ [key]) keys

/-- The entries of a response, put where their paths are in the request, up to the first that does not belong. -/
def fillSlots (paths : List Str) : List (Str × Except ObjectDeleteDiagnostic Unit) →
    List (Option (Except DeleteObjectsFailure Unit)) → List (Option (Except DeleteObjectsFailure Unit)) × Bool
  | [], slots => (slots, true)
  | (path, result) :: entries, slots =>
    if path ∉ paths then (slots, false)
    else if ((slots[paths.idxOf path]?).bind id).isSome then (slots, false)
    else fillSlots paths entries (slots.set (paths.idxOf path) (some (result.mapError .rejected)))

/-- The results of one chunk, and what its untouched tail is labelled with if the call stops here. -/
def chunkResults (paths : List Str) :
    Except DeleteObjectsRequestError (List (Str × Except ObjectDeleteDiagnostic Unit)) →
      List (Except DeleteObjectsFailure Unit) × Option DeleteObjectsFailure
  | .ok entries =>
    let (slots, belongs) := fillSlots paths entries (paths.map fun _ => none)
    let results := slots.map (·.getD (.ok ()))
    if entries.length = paths.length ∧ belongs = true ∧ slots.all (·.isSome) then (results, none)
    else
      let diagnostic : ObjectDeleteDiagnostic := ⟨some "InvalidResponse".toList,
        "chunk response did not reconcile to exactly one member per requested key".toList, false⟩
      (results.map fun r => match r with
        | .ok () => .error (.unconfirmed .invalidResponse diagnostic)
        | .error e => .error e, some .notAttempted)
  | .error (.unsupported diagnostic) => (paths.map fun _ => .error (.unsupported diagnostic), some (.unsupported diagnostic))
  | .error (.request diagnostic) =>
    (paths.map fun _ => .error (.unconfirmed .requestFailed diagnostic), some .notAttempted)
  | .error (.invalidResponse diagnostic) =>
    (paths.map fun _ => .error (.unconfirmed .invalidResponse diagnostic), some .notAttempted)

/-- The chunks of an admitted input, one request each. -/
def deleteChunks : List (List Str) → StoreOp DeleteObjectsInputError (List DeleteObjectsOutcome)
  | [] => pure []
  | chunk :: chunks => do
    let paths := chunk.map (K.root ++ ·)
    let (results, stop) := chunkResults paths (← Op.ask (Req.deleteObjects paths))
    let outcomes := chunk.zipWith DeleteObjectsOutcome.mk results
    match stop with
    | some failure => pure (outcomes ++ chunks.flatten.map fun key => ⟨key, .error failure⟩)
    | none =>
      let tail ← deleteChunks chunks
      pure (outcomes ++ tail)

/-- `delete_objects`. -/
def deleteObjects (keys : List Str) : StoreOp DeleteObjectsInputError (List DeleteObjectsOutcome) :=
  if keys.length > deleteObjectsMaxInput then throw (.tooManyKeys keys.length deleteObjectsMaxInput)
  else match admitObjects K [] keys with
    | .error e => throw e
    | .ok () => deleteChunks K (keys.toChunks deleteObjectsMaxKeys)

/-! ### Trims -/

/-- `TrimState`. -/
structure TrimState where
  firstRetained : UInt64
  advanced : Bool
deriving DecidableEq

/-- The certificate of a floor, created if absent, and the floor in force afterwards. -/
def certify (fuel : ℕ) (scope certPrefix : Str) (firstRetained : UInt64) : KeyOp TrimState := do
  let objectKey ← check (K.objectKey (certPrefix ++ seqComponent firstRetained))
  match ← uploadConditional objectKey (ValueEnvelope.mk 0 0 (ascii "trim-certificate")).encode none with
  | .ok _ | .error .preconditionFailed =>
    let effective := (← trimFloor K fuel scope).getD firstRetained
    pure ⟨effective, effective = firstRetained⟩
  | .error _ => unavailable "propose_trim: certificate create"

/-- `propose_trim`. -/
def proposeTrim (fuel : ℕ) (scope : Str) (firstRetained : UInt64) : KeyOp TrimState := do
  let certPrefix ← check (trimCertPrefix scope)
  match ← trimFloor K fuel scope with
  | none => certify K fuel scope certPrefix firstRetained
  | some certified =>
    if firstRetained < certified then throw (.trimNotMonotone firstRetained certified)
    else if firstRetained = certified then pure ⟨certified, false⟩
    else certify K fuel scope certPrefix firstRetained

/-- One page of a sweep's walk: `inl` the keys to delete when the walk ends in it, else where to go on and the keys
so far. The data walk steps over position 0, the walks over its mirrors end there. -/
def sweepPage (pfx : Str) (firstRetained : UInt64) (stepsOverZero : Bool) :
    List Str → Option Str → List Str → List Str ⊕ (Option Str × List Str)
  | [], after, pending => .inr (after, pending)
  | key :: keys, _, pending =>
    match (stripPrefix pfx key).bind parseSeqComponent with
    | none => .inl pending
    | some seq =>
      if seq = 0 ∧ stepsOverZero then sweepPage pfx firstRetained stepsOverZero keys (some key) pending
      else if seq = 0 ∨ firstRetained ≤ seq then .inl pending
      else sweepPage pfx firstRetained stepsOverZero keys (some key) (pending ++ [key])

/-- The keys a walk over `{pfx}{seq}` finds below the floor. -/
def sweepWalk (pfx : Str) (firstRetained : UInt64) (stepsOverZero : Bool) : ℕ → Option Str → List Str → KeyOp (List Str)
  | 0, _, _ => Op.stop
  | fuel + 1, after, pending => do
    let keys ← listAfter K after 1000
    if keys = [] then pure pending
    else match sweepPage pfx firstRetained stepsOverZero keys after pending with
      | .inl final => pure final
      | .inr (last, soFar) => sweepWalk pfx firstRetained stepsOverZero fuel last soFar

/-- `DeleteBelowReport`. -/
structure DeleteBelowReport where
  examined : ℕ
  deleted : ℕ
  remaining : ℕ
deriving DecidableEq

/-- The raw deletes of a sweep. -/
def sweepDeletes : List Str → DeleteBelowReport → KeyOp DeleteBelowReport
  | [], report => pure report
  | key :: keys, report => do
    let objectKey ← check (K.objectKey key)
    match ← deleteObject objectKey with
    | .ok () => sweepDeletes keys { report with examined := report.examined + 1, deleted := report.deleted + 1 }
    | .error _ => sweepDeletes keys { report with examined := report.examined + 1, remaining := report.remaining + 1 }

/-- The sweep of `delete_below`, once its floor is certified. -/
def sweepBelow (fuel : ℕ) (dataPrefix : Str) (firstRetained : UInt64) : KeyOp DeleteBelowReport := do
  check (validateIdentifier "delete_below data prefix" (dataPrefix ++ seqComponent 0))
  let pending ← sweepWalk K dataPrefix firstRetained true fuel (some (dataPrefix ++ seqComponent 0)) []
  let tombstonePrefix := tombstoneKey dataPrefix
  let pending ← sweepWalk K tombstonePrefix firstRetained false fuel (some (tombstonePrefix ++ seqComponent 0)) pending
  let incarnationPrefix := incarnationKey dataPrefix
  let pending ← sweepWalk K incarnationPrefix firstRetained false fuel (some (incarnationPrefix ++ seqComponent 0)) pending
  sweepDeletes K pending ⟨0, 0, 0⟩

/-- `delete_below`. -/
def deleteBelow (fuel : ℕ) (scope dataPrefix : Str) (firstRetained : UInt64) : KeyOp DeleteBelowReport := do
  let _ ← check (trimCertPrefix scope)
  let certified ← trimFloor K fuel scope
  if certified.all (· < firstRetained) then throw (.trimNotCertified scope firstRetained certified)
  else sweepBelow K fuel dataPrefix firstRetained

end YeetzS3.Keyspace
