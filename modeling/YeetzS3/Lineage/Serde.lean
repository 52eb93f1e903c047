import YeetzS3.Json
import YeetzS3.Sha256
import YeetzS3.Store
import YeetzS3.Lineage.Format

/-!
# The crates the kernel calls

SHA-256, and the JSON serde writes for the wire structures, as one instance of `Crates`. The readers accept the
layout serde writes.
-/

namespace YeetzS3.Lineage

namespace Serde

open Json Piece

theorem comma_notDigit : ','.isDigit = false := rfl

theorem brace_notDigit : '}'.isDigit = false := rfl

/-- A `u64`, and the character that ends it. -/
def u64 (post : Char) (h : post.isDigit = false) : Piece UInt64 :=
  (num post h).map UInt64.toNat (fun n => if n < 2 ^ 64 then some (UInt64.ofNat n) else none) fun n => by
    rw [if_pos n.toNat_lt, UInt64.ofNat_toNat]

/-- A `u32`, and the character that ends it. -/
def u32 (post : Char) (h : post.isDigit = false) : Piece UInt32 :=
  (num post h).map UInt32.toNat (fun n => if n < 2 ^ 32 then some (UInt32.ofNat n) else none) fun n => by
    rw [if_pos n.toNat_lt, UInt32.ofNat_toNat]

/-- A `u16`, and the character that ends it. -/
def u16 (post : Char) (h : post.isDigit = false) : Piece UInt16 :=
  (num post h).map UInt16.toNat (fun n => if n < 2 ^ 16 then some (UInt16.ofNat n) else none) fun n => by
    rw [if_pos n.toNat_lt, UInt16.ofNat_toNat]

/-- A position, its opening brace left to the option around it. -/
def position : Piece PositionWire :=
  ((str.after "\"digest\":".toList).pair ((u64 '}' brace_notDigit).after ",\"generation\":".toList)).iso
    (fun w => (w.digest, w.generation)) (fun t => ⟨t.1, t.2⟩) fun _ => rfl

/-- A field that holds a position or `null`. -/
def prior : Piece (Option PositionWire) := (opt position).after ",\"prior\":".toList

/-- A string in the field with this text before it. -/
def strField (pre : String) : Piece Str := str.after pre.toList

def tombstone : Piece Tombstone :=
  (((u32 ',' comma_notDigit).after "\x7b\"format_version\":".toList).pair
    (((u64 ',' comma_notDigit).after "\"deleted_at_gen\":".toList).pair
    (((u64 ',' comma_notDigit).after "\"incarnation\":".toList).pair
    ((strField "\"cause\":").pair ((strField ",\"actor\":").pair ((u64 '}' brace_notDigit).after ",\"ts\":".toList)))))).iso
    (fun t => (t.formatVersion, t.deletedAtGen, t.incarnation, t.cause, t.actor, t.ts))
    (fun t => ⟨t.1, t.2.1, t.2.2.1, t.2.2.2.1, t.2.2.2.2.1, t.2.2.2.2.2⟩) fun _ => rfl

def record : Piece RecordWire :=
  ((strField "\x7b\"actor_id\":").pair ((strField ",\"cause_id\":").pair ((strField ",\"envelope\":").pair
    ((strField ",\"lineage\":").pair ((strField ",\"operation_id\":").pair ((strField ",\"payload_hex\":").pair
    (prior.pair (((u16 ',' comma_notDigit).after ",\"protocol_epoch\":".toList).pair (((u64 ',' comma_notDigit).after "\"sequence\":".toList).pair
    ((strField "\"transition_schema\":").pair ((strField ",\"transition_type\":").before ['}']))))))))))).iso
    (fun w => (w.actorId, w.causeId, w.envelope, w.lineage, w.operationId, w.payloadHex, w.prior, w.protocolEpoch,
      w.sequence, w.transitionSchema, w.transitionType))
    (fun ⟨a, c, e, l, o, p, r, n, s, ts, tt⟩ => ⟨a, c, e, l, o, p, r, n, s, ts, tt⟩) fun _ => rfl

/-- What both shapes of a head begin with. -/
def headStart : Piece (Str × UInt64) :=
  (strField "\x7b\"envelope\":").pair ((u64 ',' comma_notDigit).after ",\"generation\":".toList)

/-- What both shapes of a head end with. -/
def headEnd : Piece (Str × Option PositionWire × Str) :=
  str.pair (prior.pair ((strField ",\"record_digest\":").before ['}']))

def head : Piece HeadWire :=
  (headStart.pair (((u64 ',' comma_notDigit).pair (headEnd.after "\"lineage\":".toList)).after "\"incarnation\":".toList)).iso
    (fun w => ((w.envelope, w.generation), w.incarnation, w.lineage, w.prior, w.recordDigest))
    (fun ⟨⟨e, g⟩, i, l, p, d⟩ => ⟨e, g, i, l, p, d⟩) fun _ => rfl

def headV1 : Piece HeadWireV1 :=
  (headStart.pair (headEnd.after "\"lineage\":".toList)).iso
    (fun w => ((w.envelope, w.generation), w.lineage, w.prior, w.recordDigest))
    (fun ⟨⟨e, g⟩, l, p, d⟩ => ⟨e, g, l, p, d⟩) fun _ => rfl

def checkpoint : Piece CheckpointWire :=
  ((strField "\x7b\"envelope\":").pair ((strField ",\"last_included_record_digest\":").pair ((strField ",\"lineage\":").pair
    (((u16 ',' comma_notDigit).after ",\"protocol_epoch\":".toList).pair (((u64 ',' comma_notDigit).after "\"source_generation\":".toList).pair
    ((strField "\"source_head_digest\":").pair ((strField ",\"state_hex\":").pair
    ((strField ",\"transition_schema\":").before ['}'])))))))).iso
    (fun w => (w.envelope, w.lastIncludedRecordDigest, w.lineage, w.protocolEpoch, w.sourceGeneration,
      w.sourceHeadDigest, w.stateHex, w.transitionSchema))
    (fun ⟨e, r, l, n, g, d, s, t⟩ => ⟨e, r, l, n, g, d, s, t⟩) fun _ => rfl

/-- A projected record, its opening brace left to the list around it. -/
def projected : Piece ProjectedRecordWire :=
  ((strField "\"bytes_hex\":").pair ((strField ",\"digest\":").before ['}'])).iso
    (fun w => (w.bytesHex, w.digest)) (fun t => ⟨t.1, t.2⟩) fun _ => rfl

def projection : Piece ProjectionWire :=
  ((strField "\x7b\"envelope\":").pair (((many projected).after ",\"records\":".toList).pair
    ((strField ",\"source_digest\":").pair (((u64 ',' comma_notDigit).after ",\"source_generation\":".toList).pair
    ((strField "\"source_lineage\":").before ['}']))))).iso
    (fun w => (w.envelope, w.records, w.sourceDigest, w.sourceGeneration, w.sourceLineage))
    (fun ⟨e, r, d, g, l⟩ => ⟨e, r, d, g, l⟩) fun _ => rfl

/-- The codec of a piece. -/
def codec {W : Type} (p : Piece W) : Codec W := ⟨p.toVec, p.fromSlice, p.fromSlice_toVec⟩

theorem head_headV1 (w : HeadWire) : headV1.read (head.write w) = none := by
  have hlit : ∀ rest, expect "\"lineage\":".toList ("\"incarnation\":".toList ++ rest) = none := fun _ => rfl
  show ((headStart.pair (headEnd.after "\"lineage\":".toList)).read _).bind _ = none
  rw [head, iso, map, pair_read_none headStart _ headEnd hlit]
  rfl

theorem headV1_head (w : HeadWireV1) : head.read (headV1.write w) = none := by
  have hlit : ∀ rest, expect "\"incarnation\":".toList ("\"lineage\":".toList ++ rest) = none := fun _ => rfl
  show ((headStart.pair (((u64 ',' comma_notDigit).pair (headEnd.after "\"lineage\":".toList)).after "\"incarnation\":".toList)).read _).bind _ = none
  rw [headV1, iso, map, pair_read_none headStart _ _ hlit]
  rfl

/-- SHA-256 and serde. -/
def crates : Crates where
  sha256 := Sha256.digest
  tombstoneJson := tombstone.toVec
  tombstoneOfJson := tombstone.fromSlice
  sha256_length := Sha256.digest_length
  record := codec record
  checkpoint := codec checkpoint
  head := codec head
  headV1 := codec headV1
  projection := codec projection
  headV1_of_head w := fromSlice_toVec_none head headV1 (head_headV1 w)
  head_of_headV1 w := fromSlice_toVec_none headV1 head (headV1_head w)

end Serde

/-! ### Objects of one letter -/

theorem letter_valid : isValidLineage "a".toList = true := by decide

theorem first_valid : recordFieldsValid "t".toList "s".toList "o".toList "p".toList "c".toList 0 none = true := by decide

/-- A lineage of one letter. -/
def letterLineage : KernelLineage := ⟨"a".toList, .successorCapable, letter_valid⟩

/-- Its first record. -/
def letterGenesis : CanonicalRecord :=
  ⟨letterLineage, 0, none, "t".toList, "s".toList, [7], "o".toList, "p".toList, "c".toList, first_valid⟩

/-- Its first head, as the append that wrote it returned it. -/
def letterHead : HeadRead :=
  let head : CanonicalHead := ⟨letterLineage, 0, 0, letterGenesis.digest Serde.crates, none⟩
  ⟨head, contentTag (head.canonicalBytes Serde.crates)⟩

/-- Its second record. -/
def letterSuccessor : CanonicalRecord :=
  ⟨letterLineage, 1, some letterHead.head.position, "t".toList, "s".toList, [8], "o".toList, "p".toList, "c".toList,
    by decide⟩

end YeetzS3.Lineage
