import YeetzS3.Store

/-!
# Errors and existence witnesses

The errors of the keyspace surface, and the tombstone both surfaces write before an intentional deletion.
`Outside` collects the functions of other crates the kernel calls: SHA-256 and serde's JSON.
-/

namespace YeetzS3

/-- `KeyspaceError`. -/
inductive KeyspaceError where
  | invalidIdentifier (kind : String) (value : Str)
  | alreadyExists (key : Str)
  | preconditionFailed (key : Str) (expectedEtag : Etag) (observed : Option Etag)
      (observedIncarnation observedVersion : Option UInt64)
  | valueEnvelopeMalformed (key : Str)
  | versionExhausted (key : Str)
  | trimNotMonotone (requested certified : UInt64)
  | trimNotCertified (scope : Str) (requested : UInt64) (certified : Option UInt64)
  | tombstoneImmutable (key : Str)
  | incarnationCounterImmutable (key : Str)
  | trimCertificateImmutable (key : Str)
  | manifestMalformed (key : Str)
  | manifestRootMismatch (key : Str)
  | chunkMissing (key : Str) (chunk : ℕ)
  | chunkIntegrity (key : Str) (chunk : ℕ)
  | valueTooLarge (key : Str) (len max : ℕ)
  | chunkCountInvalid (key : Str) (count : ℕ)
  | invalidRange (key : Str) (start stop logicalLen : ℕ)
  | manifestTooLarge (key : Str) (len max : ℕ)
  | maintenanceFenced (key : Str)
  | maintenanceFenceRequired (ns : Str)
  | maintenanceFenceConflict (ns : Str)
  | staleIncarnation (key : Str)
  | maintenanceFenceImmutable (key : Str)
  | unavailable (operation : String)
deriving DecidableEq

/-- The witness that something existed and was deliberately deleted. -/
structure Tombstone where
  formatVersion : UInt32
  deletedAtGen : UInt64
  incarnation : UInt64
  cause : Str
  actor : Str
  ts : UInt64
deriving DecidableEq

/-- SHA-256, and serde's JSON of a tombstone. -/
structure Outside where
  sha256 : Bytes → Bytes
  tombstoneJson : Tombstone → Bytes
  tombstoneOfJson : Bytes → Option Tombstone

namespace Tombstone

/-- `TOMBSTONE_FORMAT_VERSION`. -/
def currentFormat : UInt32 := 2

/-- `Tombstone::new`, at clock reading `ts`. -/
def mint (incarnation deletedAtGen : UInt64) (cause actor : Str) (ts : UInt64) : Tombstone :=
  ⟨currentFormat, deletedAtGen, incarnation, cause, actor, ts⟩

/-- `Tombstone::decode`, version check included. -/
def decode (O : Outside) (bytes : Bytes) : Except KeyspaceError Tombstone :=
  match O.tombstoneOfJson bytes with
  | none => .error (.valueEnvelopeMalformed "tombstone payload".toList)
  | some t =>
    if t.formatVersion ≠ currentFormat then .error (.valueEnvelopeMalformed "tombstone format version".toList)
    else .ok t

end Tombstone

end YeetzS3
