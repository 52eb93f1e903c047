import YeetzS3.Tombstone

/-!
# Keyspace values on the wire

The two formats a control object may have: the inline v2 envelope and the v3 manifest of a chunked
value. Both carry the incarnation and the version at the same place behind a magic of the same length,
so `stampOf` reads the lifetime and version of a control without deciding its format.
-/

namespace YeetzS3.Keyspace

/-- ASCII text as bytes. -/
def ascii (s : String) : Bytes := s.toList.map fun c => UInt8.ofNat c.toNat

/-! ### The inline envelope -/

/-- `VALUE_ENVELOPE_PREFIX`, without its terminating zero byte. -/
def valueEnvelopePrefix : Bytes := ascii "yeetz-keyspace-value/v2" ++ [0]

/-- `ValueEnvelope`. -/
structure ValueEnvelope where
  incarnation : UInt64
  version : UInt64
  payload : Bytes
deriving DecidableEq

/-- `ValueEnvelope::encode`. -/
def ValueEnvelope.encode (e : ValueEnvelope) : Bytes :=
  valueEnvelopePrefix ++ u64Bytes e.incarnation ++ u64Bytes e.version ++ e.payload

/-- Bytes `from .. from + n`. -/
def slice (bs : Bytes) (start n : ℕ) : Bytes := (bs.drop start).take n

/-- `u64::from_be_bytes` of a slice known to be eight bytes long. -/
def beU64 (bs : Bytes) : UInt64 := UInt64.ofNat (ofBeBytes bs)

/-- `ValueEnvelope::decode`. -/
def ValueEnvelope.decode (key : Str) (encoded : Bytes) : Except KeyspaceError ValueEnvelope :=
  if encoded.length < 40 ∨ ¬ valueEnvelopePrefix.isPrefixOf encoded then
    .error (.valueEnvelopeMalformed key)
  else .ok ⟨beU64 (slice encoded 24 8), beU64 (slice encoded 32 8), encoded.drop 40⟩

/-! ### The manifest of a chunked value -/

/-- `CHUNK_BYTES`. -/
def chunkBytes : ℕ := 16 * 1024 * 1024
/-- `INLINE_MAX`. -/
def inlineMax : ℕ := 64 * 1024 * 1024
/-- `MIN_CHUNKS`. -/
def minChunks : ℕ := 2
/-- `MAX_CHUNKS`. -/
def maxChunks : ℕ := 65536
/-- `MAX_LOGICAL_BYTES`. -/
def maxLogicalBytes : ℕ := chunkBytes * maxChunks
/-- `MAX_MANIFEST_BYTES`. -/
def maxManifestBytes : ℕ := 4 * 1024 * 1024
/-- `MANIFEST_MAGIC`. -/
def manifestMagic : Bytes := ascii "yeetz-keyspace-value/v3" ++ [0]
/-- `VALUE_ROOT_DOMAIN`. -/
def valueRootDomain : Bytes := ascii "yeetz-keyspace-value-root/v1"
/-- `MANIFEST_HEADER_BYTES`. -/
def manifestHeaderBytes : ℕ := 24 + 8 + 8 + 4 + 16 + 8 + 32 + 4 + 4
/-- `MANIFEST_ENTRY_BYTES`. -/
def manifestEntryBytes : ℕ := 4 + 32

/-- `ManifestEntry`. -/
structure ManifestEntry where
  encodedLen : ℕ
  sha256 : Bytes
deriving DecidableEq

/-- `ManifestEntry::digest_hex`. -/
def ManifestEntry.digestHex (e : ManifestEntry) : Str := hexEncode e.sha256

/-- `ValueManifest`. -/
structure ValueManifest where
  incarnation : UInt64
  version : UInt64
  commitId : Bytes
  logicalLen : ℕ
  valueRootSha256 : Bytes
  chunkBytes : ℕ
  entries : List ManifestEntry
deriving DecidableEq

/-- The chunk table, as it is hashed and as it is written. -/
def tableBytes (entries : List ManifestEntry) : Bytes := entries.flatMap fun e => beBytes 4 e.encodedLen ++ e.sha256

/-- `ValueManifest::compute_value_root`. -/
def computeValueRoot (O : Outside) (logicalLen chunkBytes : ℕ) (entries : List ManifestEntry) : Bytes :=
  O.sha256 (valueRootDomain ++ beBytes 8 logicalLen ++ beBytes 4 chunkBytes ++ beBytes 4 entries.length ++
    tableBytes entries)

/-- `ValueManifest::encode`. -/
def ValueManifest.encode (m : ValueManifest) : Bytes :=
  manifestMagic ++ u64Bytes m.incarnation ++ u64Bytes m.version ++ beBytes 4 1 ++ m.commitId ++
    beBytes 8 m.logicalLen ++ m.valueRootSha256 ++ beBytes 4 m.chunkBytes ++ beBytes 4 m.entries.length ++
    tableBytes m.entries

/-- The entry table of a manifest of `n` chunks, from entry `i` on. -/
def decodeEntries (encoded : Bytes) (n : ℕ) : ℕ → ℕ → Option (List ManifestEntry)
  | 0, _ => some []
  | left + 1, i => do
    let start := manifestHeaderBytes + i * manifestEntryBytes
    let encodedLen := ofBeBytes (slice encoded start 4)
    -- every chunk but the last is full, and the last is not empty
    if i = n - 1 then guard (1 ≤ encodedLen ∧ encodedLen ≤ chunkBytes) else guard (encodedLen = chunkBytes)
    let rest ← decodeEntries encoded n left (i + 1)
    some (⟨encodedLen, slice encoded (start + 4) 32⟩ :: rest)

/-- `ValueManifest::decode`. -/
def ValueManifest.decode (O : Outside) (key : Str) (encoded : Bytes) : Except KeyspaceError ValueManifest := do
  if encoded.length > maxManifestBytes then
    throw (.manifestTooLarge key encoded.length maxManifestBytes)
  if encoded.length < manifestHeaderBytes ∨ ¬ manifestMagic.isPrefixOf encoded then
    throw (.manifestMalformed key)
  let count := ofBeBytes (slice encoded 104 4)
  if ofBeBytes (slice encoded 40 4) ≠ 1 then throw (.manifestMalformed key)
  if ofBeBytes (slice encoded 100 4) ≠ Keyspace.chunkBytes then throw (.manifestMalformed key)
  if ¬ (minChunks ≤ count ∧ count ≤ maxChunks) then throw (.chunkCountInvalid key count)
  if encoded.length ≠ manifestHeaderBytes + manifestEntryBytes * count then throw (.manifestMalformed key)
  match decodeEntries encoded count count 0 with
  | none => throw (.manifestMalformed key)
  | some entries =>
    let logicalLen := ofBeBytes (slice encoded 60 8)
    if (entries.map (·.encodedLen)).sum ≠ logicalLen then throw (.manifestMalformed key)
    if logicalLen > maxLogicalBytes then throw (.valueTooLarge key logicalLen maxLogicalBytes)
    let root := slice encoded 68 32
    if computeValueRoot O logicalLen Keyspace.chunkBytes entries ≠ root then throw (.manifestRootMismatch key)
    pure ⟨beU64 (slice encoded 24 8), beU64 (slice encoded 32 8), slice encoded 44 16, logicalLen, root,
      Keyspace.chunkBytes, entries⟩

/-- `hash_entry`. -/
def hashEntry (O : Outside) (bytes : Bytes) : ManifestEntry := ⟨bytes.length, O.sha256 bytes⟩

/-- `chunk_object_key`. -/
def chunkObjectKey (ns key : Str) (incarnation version : UInt64) (digestHex : Str) : Str :=
  "keyspace-chunks/v1/".toList ++ ns ++ ['/'] ++ hexEncode (key.flatMap String.utf8EncodeChar) ++ ['/'] ++
    seqComponent incarnation ++ ['/'] ++ seqComponent version ++ ['/'] ++ digestHex

/-! ### Either format -/

/-- `ControlEnvelope`. -/
inductive ControlEnvelope where
  | inline (envelope : ValueEnvelope)
  | chunked (manifest : ValueManifest)
deriving DecidableEq

namespace ControlEnvelope

/-- `ControlEnvelope::decode`. -/
def decode (O : Outside) (key : Str) (encoded : Bytes) : Except KeyspaceError ControlEnvelope :=
  if manifestMagic.isPrefixOf encoded then (ValueManifest.decode O key encoded).map chunked
  else (ValueEnvelope.decode key encoded).map inline

/-- `ControlEnvelope::incarnation`. -/
def incarnation : ControlEnvelope → UInt64
  | inline e => e.incarnation
  | chunked m => m.incarnation

/-- `ControlEnvelope::version`. -/
def version : ControlEnvelope → UInt64
  | inline e => e.version
  | chunked m => m.version

end ControlEnvelope

/-! ### The era of a control -/

/-- The incarnation and version a control object carries. -/
structure Stamp where
  incarnation : UInt64
  version : UInt64
deriving DecidableEq

/-- The stamp of a control's bytes. -/
def stampOf (encoded : Bytes) : Stamp := ⟨beU64 (slice encoded 24 8), beU64 (slice encoded 32 8)⟩

theorem beU64_u64Bytes (n : UInt64) : beU64 (u64Bytes n) = n := by
  have h := u64OfBytes_u64Bytes n
  rw [u64OfBytes, if_pos (u64Bytes_length n)] at h
  exact Option.some.inj h

theorem stampOf_header (magic : Bytes) (hm : magic.length = 24) (i v : UInt64) (rest : Bytes) :
    stampOf (magic ++ u64Bytes i ++ u64Bytes v ++ rest) = ⟨i, v⟩ := by
  have hi : slice (magic ++ u64Bytes i ++ u64Bytes v ++ rest) 24 8 = u64Bytes i := by
    rw [slice, List.append_assoc, List.append_assoc, List.drop_left' hm, List.take_left' (u64Bytes_length i)]
  have hv : slice (magic ++ u64Bytes i ++ u64Bytes v ++ rest) 32 8 = u64Bytes v := by
    rw [slice, List.append_assoc, List.drop_left' (by simp [hm]), List.take_left' (u64Bytes_length v)]
  rw [stampOf, hi, hv, beU64_u64Bytes, beU64_u64Bytes]

@[simp] theorem stampOf_envelope (e : ValueEnvelope) : stampOf e.encode = ⟨e.incarnation, e.version⟩ :=
  stampOf_header _ (by decide) ..

@[simp] theorem stampOf_manifest (m : ValueManifest) : stampOf m.encode = ⟨m.incarnation, m.version⟩ := by
  simp only [ValueManifest.encode, List.append_assoc]
  rw [← List.append_assoc, ← List.append_assoc]
  exact stampOf_header _ (by decide) ..

theorem stampOf_of_envelope {key : Str} {encoded : Bytes} {e : ValueEnvelope}
    (h : ValueEnvelope.decode key encoded = .ok e) : stampOf encoded = ⟨e.incarnation, e.version⟩ := by
  unfold ValueEnvelope.decode at h
  split at h <;> cases h
  rfl

theorem stampOf_of_manifest {O : Outside} {key : Str} {encoded : Bytes} {m : ValueManifest}
    (h : ValueManifest.decode O key encoded = .ok m) : stampOf encoded = ⟨m.incarnation, m.version⟩ := by
  unfold ValueManifest.decode at h
  simp only [bind, Except.bind, pure, Except.pure, throw, throwThe, MonadExceptOf.throw] at h
  repeat' split at h
  all_goals cases h
  rfl

/-- A control that decodes carries its stamp. -/
theorem stampOf_of_decode {O : Outside} {key : Str} {encoded : Bytes} {c : ControlEnvelope}
    (h : ControlEnvelope.decode O key encoded = .ok c) : stampOf encoded = ⟨c.incarnation, c.version⟩ := by
  unfold ControlEnvelope.decode at h
  split at h
  · cases hm : ValueManifest.decode O key encoded with
    | error e => rw [hm] at h; cases h
    | ok m => rw [hm] at h; cases h; exact stampOf_of_manifest hm
  · cases he : ValueEnvelope.decode key encoded with
    | error e => rw [he] at h; cases h
    | ok e => rw [he] at h; cases h; exact stampOf_of_envelope he

end YeetzS3.Keyspace
