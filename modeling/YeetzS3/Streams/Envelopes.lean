import YeetzS3.Streams.Serde

/-!
# Envelopes and their slots

An envelope reads back as what was encoded, at the key it was encoded for. Bytes that are accepted at one slot are accepted
at no other, whatever their spelling: the stream and the seq are among the fields, and the payload stands against its
recorded length and digest.
-/

namespace YeetzS3.Streams

open Keyspace (byteLen validSegment)

/-- The segment grammar: what `validate_segment` lets through. -/
structure Grammatical (value : Str) : Prop where
  nonempty : value ≠ []
  short : byteLen value ≤ 255
  not_leading : value.head? ≠ some '/'
  not_trailing : value.getLast? ≠ some '/'
  segments : ∀ part ∈ value.splitOn '/', validSegment part = true

theorem validateSegment_ok {kind : String} {value : Str} : validateSegment kind value = .ok () ↔ Grammatical value := by
  unfold validateSegment
  constructor
  · intro h
    split at h
    · cases h
    · next hn =>
      split at h
      · next hall =>
        rw [not_or, not_or, not_or] at hn
        obtain ⟨hne, hlen, hhead, hlast⟩ := hn
        exact ⟨hne, Nat.le_of_not_gt hlen, hhead, hlast, List.all_eq_true.1 hall⟩
      · cases h
  · intro h
    rw [if_neg, if_pos (List.all_eq_true.2 h.segments)]
    rintro (hn | hn | hn | hn)
    · exact h.nonempty hn
    · exact absurd h.short (Nat.not_le_of_gt hn)
    · exact h.not_leading hn
    · exact h.not_trailing hn

/-- An identifier that was checked is its text, in the grammar. -/
theorem checked_ok {α : Type} {kind : String} {value : Str} {f : Str → α} {a : α} :
    (validateSegment kind value).map (fun _ => f value) = .ok a ↔ Grammatical value ∧ a = f value := by
  constructor
  · intro h
    cases hv : validateSegment kind value with
    | ok u =>
      rw [hv] at h
      cases h
      exact ⟨validateSegment_ok.1 hv, rfl⟩
    | error e =>
      rw [hv] at h
      cases h
  · rintro ⟨hg, rfl⟩
    rw [validateSegment_ok.2 hg]
    rfl

theorem StreamId.new_ok {value : Str} {stream : StreamId} : StreamId.new value = .ok stream ↔ Grammatical value ∧ stream = ⟨value⟩ :=
  @checked_ok _ _ _ StreamId.mk _

theorem SchemaId.new_ok {value : Str} {schemaId : SchemaId} :
    SchemaId.new value = .ok schemaId ↔ Grammatical value ∧ schemaId = ⟨value⟩ :=
  @checked_ok _ _ _ SchemaId.mk _

theorem StableEventId.new_ok {value : Str} {stableEventId : StableEventId} :
    StableEventId.new value = .ok stableEventId ↔ Grammatical value ∧ stableEventId = ⟨value⟩ :=
  @checked_ok _ _ _ StableEventId.mk _

namespace Envelope

variable {X : Crates} {stream : StreamId} {seq : UInt64} {schemaId : SchemaId} {stableEventId : StableEventId}
  {payload bytes : Bytes} {e : Envelope}

/-- The checks of `decode_and_verify` on what serde read: the payload is the one decoded. -/
structure Verified (X : Crates) (stream : StreamId) (seq : UInt64) (wire : WireEnvelope) (payload : Bytes) : Prop where
  version : wire.formatVersion = envelopeFormatVersion
  stream_eq : wire.streamId = stream.value
  seq_eq : wire.seq = seq
  decoded : Base64.decode wire.payload = some payload
  length : UInt64.ofNat payload.length = wire.payloadLen
  digest : sha256Hex X payload = wire.payloadSha256
  streamId : Grammatical wire.streamId
  stableEventId : Grammatical wire.stableEventId
  schemaId : Grammatical wire.schemaId

/-- The envelope of a verified wire form. -/
def ofWire (wire : WireEnvelope) (payload bytes : Bytes) : Envelope :=
  ⟨wire.formatVersion, ⟨⟨wire.streamId⟩, wire.seq, ⟨wire.stableEventId⟩, wire.payloadSha256⟩, ⟨wire.schemaId⟩, payload, bytes⟩

theorem toOption_eq_some {ε α : Type} {x : Except ε α} {a : α} : x.toOption = some a ↔ x = .ok a := by
  cases x <;> simp [Except.toOption]

theorem decodeAndVerify_eq_some : decodeAndVerify X stream seq bytes = some e ↔
    ∃ wire payload, X.envelope.fromSlice bytes = some wire ∧ Verified X stream seq wire payload ∧ e = ofWire wire payload bytes := by
  simp only [decodeAndVerify, Option.bind_eq_bind, Option.bind_eq_some_iff, Option.guard_eq_some', toOption_eq_some,
    StreamId.new_ok, StableEventId.new_ok, SchemaId.new_ok]
  constructor
  · rintro ⟨wire, hw, -, hv, -, ⟨hs, hq⟩, payload, hp, -, hl, -, hd, _, ⟨hg, rfl⟩, _, ⟨hg', rfl⟩, _, ⟨hg'', rfl⟩, he⟩
    cases he
    exact ⟨wire, payload, hw, ⟨hv, hs, hq, hp, hl, hd, hg, hg', hg''⟩, rfl⟩
  · rintro ⟨wire, payload, hw, h, rfl⟩
    exact ⟨wire, hw, (), h.version, (), ⟨h.stream_eq, h.seq_eq⟩, payload, h.decoded, (), h.length, (), h.digest,
      _, ⟨h.streamId, rfl⟩, _, ⟨h.stableEventId, rfl⟩, _, ⟨h.schemaId, rfl⟩, rfl⟩

/-- The wire form that was encoded passes every check. -/
theorem verified_wireOf (hs : Grammatical stream.value) (hi : Grammatical schemaId.value) (he : Grammatical stableEventId.value) :
    Verified X stream seq (wireOf X stream seq schemaId stableEventId payload) payload :=
  ⟨rfl, rfl, rfl, Base64.decode_encode payload, rfl, rfl, hs, he, hi⟩

theorem encode_ok (h : encode X stream seq schemaId stableEventId payload = .ok e) :
    e = ofWire (wireOf X stream seq schemaId stableEventId payload) payload (bytesOf X stream seq schemaId stableEventId payload) := by
  unfold encode at h
  dsimp only at h
  split at h
  · cases h
  · cases h
    rfl

theorem encode_of_short (h : (bytesOf X stream seq schemaId stableEventId payload).length ≤ maxEncodedEnvelopeBytes) :
    ∃ e, encode X stream seq schemaId stableEventId payload = .ok e := by
  unfold encode
  dsimp only
  rw [if_neg (Nat.not_lt_of_ge h)]
  exact ⟨_, rfl⟩

/-- What was encoded for a slot is accepted there, as the same envelope. -/
theorem decodeAndVerify_encode (hs : Grammatical stream.value) (hi : Grammatical schemaId.value)
    (he : Grammatical stableEventId.value) (h : encode X stream seq schemaId stableEventId payload = .ok e) :
    decodeAndVerify X stream seq e.encoded = some e := by
  obtain rfl := encode_ok h
  exact decodeAndVerify_eq_some.2 ⟨_, payload, X.envelope.fromSlice_toVec _, verified_wireOf hs hi he, rfl⟩

/-- What an accepted envelope says about its bytes and its slot. -/
structure Bound (X : Crates) (stream : StreamId) (seq : UInt64) (bytes : Bytes) (e : Envelope) : Prop where
  slot : e.identity.streamId = stream ∧ e.identity.seq = seq
  elsewhere : ∀ stream' seq', (stream', seq') ≠ (stream, seq) → decodeAndVerify X stream' seq' bytes = none
  encoded : e.encoded = bytes
  /-- `payload_len` and `payload_sha256` are those of the payload. -/
  recorded : ∃ wire, X.envelope.fromSlice bytes = some wire ∧ UInt64.ofNat e.payload.length = wire.payloadLen ∧
    (e.payload.length < 2 ^ 64 → e.payload.length = wire.payloadLen.toNat) ∧ sha256Hex X e.payload = wire.payloadSha256
  digest : e.identity.payloadSha256 = sha256Hex X e.payload
  streamId : Grammatical e.identity.streamId.value
  stableEventId : Grammatical e.identity.stableEventId.value
  schemaId : Grammatical e.schemaId.value

theorem decodeAndVerify_bound (h : decodeAndVerify X stream seq bytes = some e) : Bound X stream seq bytes e := by
  obtain ⟨wire, payload, hw, hv, rfl⟩ := decodeAndVerify_eq_some.1 h
  refine ⟨⟨congrArg StreamId.mk hv.stream_eq, hv.seq_eq⟩, ?_, rfl, ⟨wire, hw, hv.length, ?_, hv.digest⟩, hv.digest.symm,
    hv.streamId, hv.stableEventId, hv.schemaId⟩
  · intro stream' seq' hne
    rw [Option.eq_none_iff_forall_ne_some]
    intro e' he'
    obtain ⟨wire', _, hw', hv', -⟩ := decodeAndVerify_eq_some.1 he'
    -- serde read the same fields
    obtain rfl : wire = wire' := Option.some.inj (hw.symm.trans hw')
    refine hne (Prod.ext ?_ (hv'.seq_eq.symm.trans hv.seq_eq))
    exact congrArg StreamId.mk (hv'.stream_eq.symm.trans hv.stream_eq)
  · intro hlen
    rw [← hv.length]
    exact (UInt64.toNat_ofNat_of_lt' hlen).symm

end Envelope

/-- Envelopes round-trip, and bind to their slot. -/
theorem envelopes_bind (X : Crates) :
    (∀ stream seq schemaId stableEventId payload e, StreamId.new stream.value = .ok stream →
      SchemaId.new schemaId.value = .ok schemaId → StableEventId.new stableEventId.value = .ok stableEventId →
      Envelope.encode X stream seq schemaId stableEventId payload = .ok e →
      Envelope.decodeAndVerify X stream seq e.encoded = some e ∧
        e.identity = ⟨stream, seq, stableEventId, sha256Hex X payload⟩ ∧ e.schemaId = schemaId ∧ e.payload = payload) ∧
    ∀ stream seq bytes e, Envelope.decodeAndVerify X stream seq bytes = some e → e.Bound X stream seq bytes := by
  refine ⟨fun stream seq schemaId stableEventId payload e hs hi he h => ?_, fun _ _ _ _ => Envelope.decodeAndVerify_bound⟩
  refine ⟨Envelope.decodeAndVerify_encode (StreamId.new_ok.1 hs).1 (SchemaId.new_ok.1 hi).1 (StableEventId.new_ok.1 he).1 h, ?_⟩
  obtain rfl := Envelope.encode_ok h
  exact ⟨rfl, rfl, rfl⟩

/-- An event of three bytes at the seventh position of the stream of one letter. -/
theorem envelopes_bind_letter : ∃ e,
    Envelope.encode Serde.crates letterStream 7 ⟨"x".toList⟩ ⟨"e1".toList⟩ [104, 0, 255] = .ok e ∧ e.payload = [104, 0, 255] ∧
    Envelope.decodeAndVerify Serde.crates letterStream 7 e.encoded = some e ∧ e.Bound Serde.crates letterStream 7 e.encoded := by
  have hlen : (Envelope.bytesOf Serde.crates letterStream 7 ⟨"x".toList⟩ ⟨"e1".toList⟩ [104, 0, 255]).length ≤ maxEncodedEnvelopeBytes := by
    decide +kernel
  obtain ⟨e, he⟩ := Envelope.encode_of_short hlen
  obtain ⟨hread, -, -, hpayload⟩ := (envelopes_bind Serde.crates).1 letterStream 7 ⟨"x".toList⟩ ⟨"e1".toList⟩ [104, 0, 255] e
    (by decide +kernel) (by decide +kernel) (by decide +kernel) he
  exact ⟨e, he, hpayload, hread, (envelopes_bind Serde.crates).2 _ _ _ _ hread⟩

end YeetzS3.Streams
