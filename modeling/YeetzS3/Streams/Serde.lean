import YeetzS3.Lineage.Serde
import YeetzS3.Streams.Format

/-!
# The JSON of the streams

The structures `yeetz-s3-streams` stores, as serde writes them, with SHA-256 as one instance of `Crates`.
-/

namespace YeetzS3.Streams

namespace Serde

open Json Json.Piece
open Lineage (Codec)
open Lineage.Serde (u32 u64 strField codec comma_notDigit)

/-- What the structures with a format version begin with. -/
def version : Piece UInt32 := (u32 ',' comma_notDigit).after "\x7b\"format_version\":".toList

def envelope : Piece WireEnvelope :=
  (version.pair ((strField "\"stream_id\":").pair (((u64 ',' comma_notDigit).after ",\"seq\":".toList).pair
    ((strField "\"stable_event_id\":").pair ((strField ",\"schema_id\":").pair (((u64 ',' comma_notDigit).after ",\"payload_len\":".toList).pair
    ((strField "\"payload_sha256\":").pair ((strField ",\"payload\":").before ['}'])))))))).iso
    (fun w => (w.formatVersion, w.streamId, w.seq, w.stableEventId, w.schemaId, w.payloadLen, w.payloadSha256, w.payload))
    (fun ⟨v, s, q, e, c, l, d, p⟩ => ⟨v, s, q, e, c, l, d, p⟩) fun _ => rfl

def tailHint : Piece TailHint :=
  (version.pair (((u64 ',' comma_notDigit).after "\"highest_validated_dense_seq\":".toList).pair
    ((strField "\"terminal_record_digest\":").before ['}']))).iso
    (fun t => (t.formatVersion, t.highestValidatedDenseSeq, t.terminalRecordDigest)) (fun ⟨v, q, d⟩ => ⟨v, q, d⟩) fun _ => rfl

def cursor : Piece Cursor :=
  (version.pair ((strField "\"stream_id\":").pair (((u64 ',' comma_notDigit).after ",\"seq\":".toList).pair
    ((strField "\"event_id\":").before ['}'])))).iso
    (fun c => (c.formatVersion, c.streamId.value, c.seq, c.eventId)) (fun ⟨v, s, q, e⟩ => ⟨v, ⟨s⟩, q, e⟩) fun _ => rfl

def migrationSeal : Piece MigrationSeal :=
  (version.pair ((strField "\"source_lineage\":").pair ((strField ",\"source_head_digest\":").pair
    (((u64 ',' comma_notDigit).after ",\"event_count\":".toList).pair ((strField "\"event_root_digest\":").before ['}']))))).iso
    (fun s => (s.formatVersion, s.sourceLineage, s.sourceHeadDigest, s.eventCount, s.eventRootDigest))
    (fun ⟨v, l, h, n, r⟩ => ⟨v, l, h, n, r⟩) fun _ => rfl

/-- SHA-256 and serde. -/
def crates : Crates where
  sha256 := Sha256.digest
  tombstoneJson := Lineage.Serde.tombstone.toVec
  tombstoneOfJson := Lineage.Serde.tombstone.fromSlice
  envelope := codec envelope
  tailHint := codec tailHint
  cursor := codec cursor
  migrationSeal := codec migrationSeal

end Serde

/-- A stream of one letter. -/
def letterStream : StreamId := ⟨"a".toList⟩

end YeetzS3.Streams
