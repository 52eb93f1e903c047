import YeetzS3.Streams.Envelopes
import YeetzS3.Streams.Migrated

/-!
# A migration run again

After a success, and after any number of runs that were cut off on an empty log, the log is ready for its entries
(`StreamId.Ready`), and a run that is answered returns the receipt of its entries.
-/

namespace YeetzS3.Streams

open Conc
open Keyspace (AtomicKeyspace Fit ValidPath ValueEnvelope)

/-- What a migration asks for. -/
inductive StreamId.Migrates (X : Crates) (K : AtomicKeyspace) (stream : StreamId) (entries : List MigrationEntry) : Req → Prop where
  | publish {r : Req} (h : K.Publishing X.toOutside stream.tailKey r) : Migrates X K stream entries r
  | enter {entry : MigrationEntry} {envelope : Envelope} (hmem : entry ∈ entries) (he : Encodes X stream entry envelope)
      (hv : ValidPath (stream.logKey entry.seq)) (n : UInt64) :
      Migrates X K stream entries (.put (K.root ++ stream.logKey entry.seq) (ValueEnvelope.mk n 0 envelope.encoded).encode none)
  | evict {entry : MigrationEntry} (hmem : entry ∈ entries) (e : Etag) :
      Migrates X K stream entries (.deleteIf (K.root ++ stream.logKey entry.seq) e)

section
variable {X : Crates} {K : AtomicKeyspace} {B : Backend} {s t u : Store} {stream : StreamId} {entries : List MigrationEntry}
  {entry : MigrationEntry} {envelope envelope' : Envelope} {envelopes : List Envelope} {fuel : ℕ} {ids : ℕ → Bytes} {q : UInt64}

/-! ### A log that is ready -/

theorem Encodes.unique (h : Encodes X stream entry envelope) (h' : Encodes X stream entry envelope') : envelope = envelope' :=
  Except.ok.inj (h.symm.trans h')

theorem forall₂_unique {envelopes' : List Envelope} (h : List.Forall₂ (Encodes X stream) entries envelopes)
    (h' : List.Forall₂ (Encodes X stream) entries envelopes') : envelopes = envelopes' := by
  induction h generalizing envelopes' with
  | nil =>
    cases h'
    rfl
  | cons h _ ih =>
    cases h' with
    | cons h' hrest => rw [h.unique h', ih hrest]

theorem forall₂_left {R : MigrationEntry → Envelope → Prop} (h : List.Forall₂ R entries envelopes) (hmem : entry ∈ entries) :
    ∃ envelope, R entry envelope := by
  induction h with
  | nil => cases hmem
  | cons h _ ih =>
    rcases List.mem_cons.1 hmem with rfl | hmem
    · exact ⟨_, h⟩
    · exact ih hmem

theorem exists_forall₂ {R : MigrationEntry → Envelope → Prop} (h : ∀ entry ∈ entries, ∃ envelope, R entry envelope) :
    ∃ envelopes, List.Forall₂ R entries envelopes := by
  induction entries with
  | nil => exact ⟨[], .nil⟩
  | cons entry entries ih =>
    obtain ⟨envelope, he⟩ := h entry List.mem_cons_self
    obtain ⟨envelopes, hrest⟩ := ih fun e hmem => h e (List.mem_cons_of_mem _ hmem)
    exact ⟨envelope :: envelopes, .cons he hrest⟩

/-- The entries of a log are numbered within it. -/
theorem seq_of_mem (hd : checkDense 0 (orderedEntries entries) = .ok ()) (hmem : entry ∈ entries) :
    0 < entry.seq.toNat ∧ entry.seq.toNat ≤ entries.length := by
  have h := (dense_seqs hd).2 entry (mem_orderedEntries.2 hmem)
  rwa [length_orderedEntries, Nat.zero_add] at h

/-- No two entries have one position. -/
theorem entry_of_seq {entry' : MigrationEntry} (hd : checkDense 0 (orderedEntries entries) = .ok ()) (hmem : entry ∈ entries)
    (hmem' : entry' ∈ entries) (h : entry.seq = entry'.seq) : entry = entry' := by
  by_contra hne
  have : Std.Symm fun a b : MigrationEntry => a.seq ≠ b.seq := ⟨fun _ _ => Ne.symm⟩
  exact (dense_seqs hd).1.forall (mem_orderedEntries.2 hmem) (mem_orderedEntries.2 hmem') hne h

/-- A log that holds its entries is ready for them. -/
theorem StreamId.Whole.ready (hw : stream.Whole X K t entries.length) (hd : checkDense 0 (orderedEntries entries) = .ok ())
    (hall : List.Forall₂ (stream.EntryAt X K t) (orderedEntries entries) envelopes) : stream.Ready X K t entries := by
  refine ⟨hd, fun entry hmem => ?_, fun entry hmem envelope' he' => ?_, hw.genesis, hw.last, hw.within⟩
  · obtain ⟨envelope, hat⟩ := forall₂_left hall (mem_orderedEntries.2 hmem)
    refine ⟨⟨envelope, hat.encodes⟩, hat.fit, fun envelope' he' _ => ?_⟩
    rw [he'.unique hat.encodes]
    exact hat.found
  · obtain ⟨envelope, hat⟩ := forall₂_left hall (mem_orderedEntries.2 hmem)
    obtain ⟨hpos, hle⟩ := seq_of_mem hd hmem
    obtain ⟨events, hslice, hlen⟩ := hw.events
    obtain ⟨e, -, -, seq, hseq, bytes, hb, hv⟩ := slice_present (q := entry.seq) hslice hpos (by omega)
    obtain rfl := UInt64.toNat_inj.1 hseq
    rw [hat.found] at hb
    cases hb
    exact ⟨e, he'.unique hat.encodes ▸ hv⟩

/-- Run on a log that is ready, by a caller that is answered, it returns the receipt of its entries. -/
theorem ends_ready (ho : ¬ B.omits) (hf : ¬ B.faults) (ha : stream.Alone K s) (hr : stream.Ready X K s entries)
    (hsize : entries.length < 2 ^ 63) (hfuel : (K.keys s).length + entries.length + 2 < fuel) (hrounds : 65 < fuel) :
    (migrateLog X K fuel ids stream entries).run.Ends B.exec (fun r _ => ∃ envelopes,
      List.Forall₂ (Encodes X stream) (orderedEntries entries) envelopes ∧ r = .ok (migrationReceipt X envelopes)) s := by
  have hmax : ¬ stream.Present K s maxSeq := by
    have hval : maxSeq.toNat = 18446744073709551615 := by decide
    exact hr.last maxSeq (by omega)
  refine (ends_migrateLog ho ha hmax hsize hfuel hrounds).imp fun r t hm => ?_
  obtain ⟨receipt, rfl⟩ := hm.succeeds hf hr
  obtain ⟨-, -, envelopes, hall, rfl⟩ := hm.landed receipt rfl
  exact ⟨envelopes, hall.imp fun _ _ h => h.encodes, rfl⟩

/-- A stream stays alone while a migration is at work. -/
theorem StreamId.Alone.migrated (ha : stream.Alone K s) (hg : stream.Grown K entries s t) {bytes : Bytes}
    (hb : stream.found X K t 0 = .ok (some bytes)) : stream.Alone K t :=
  ha.grown (Keyspace.objectKey_of_seen hb) fun key hkey => by
    rcases hg.keys key hkey with h | h | ⟨entry, -, h⟩
    · exact .inl h
    · exact .inr (.inl h)
    · exact .inr (.inr ⟨_, h⟩)

/-! ### What is left of a run that was cut off -/

/-- The log is empty and untrimmed. -/
structure StreamId.Blank (X : Crates) (K : AtomicKeyspace) (s : Store) (stream : StreamId) : Prop where
  genesis : ∃ e, stream.EventAt X K s 0 e
  last : stream.Last K s 0
  within : stream.Within K s 1

/-- The entries can be written. -/
structure StreamId.Admissible (X : Crates) (K : AtomicKeyspace) (s : Store) (stream : StreamId) (entries : List MigrationEntry) : Prop where
  dense : checkDense 0 (orderedEntries entries) = .ok ()
  encodes : ∀ entry ∈ entries, ∃ envelope, Encodes X stream entry envelope
  fit : ∀ entry ∈ entries, Fit K s (stream.logKey entry.seq)
  named : Grammatical stream.value
  typed : ∀ entry ∈ entries, Grammatical entry.schemaId.value ∧ Grammatical entry.stableEventId.value

/-- Beside the hint and the entries nothing changed, and what is at the position of an entry is its event. -/
structure StreamId.Partial (X : Crates) (K : AtomicKeyspace) (stream : StreamId) (entries : List MigrationEntry) (s u : Store) : Prop where
  beside : ∀ key, key ≠ stream.tailKey → (∀ entry ∈ entries, key ≠ stream.logKey entry.seq) → Agree (K.Own key) s u
  holds : ∀ entry ∈ entries, ∀ o, u.lookup (K.root ++ stream.logKey entry.seq) = some o →
    ∃ envelope, Encodes X stream entry envelope ∧ Keyspace.Holds o envelope.encoded

theorem migrates_reads (r : Req) (h : K.Reads r) : StreamId.Migrates X K stream entries r := .publish (.inl h)

theorem every_migrateLog_migrates : (migrateLog X K fuel ids stream entries).run.Every (StreamId.Migrates X K stream entries) fun _ => True := by
  refine every_migrateLog_of migrates_reads (fun sc hs r hw => .publish (.inr ⟨sc, hs, hw⟩)) fun entry hmem => ?_
  refine every_migrateEntry migrates_reads fun envelope he => ?_
  refine Keyspace.every_createShort (Keyspace.allowsReads_of migrates_reads) (fun hp n => ?_) (.evict hmem) (encoded_short he)
  exact .enter hmem he (AtomicKeyspace.objectKey_ok hp).2 n

theorem StreamId.Blank.left (hb : stream.Blank X K s) (hd : checkDense 0 (orderedEntries entries) = .ok ()) :
    StreamId.Partial X K stream entries s s where
  beside _ _ _ := Agree.refl s
  holds entry hmem o ho := by
    have habsent : ¬ stream.Present K s entry.seq := hb.last _ (seq_of_mem hd hmem).1
    refine absurd ?_ habsent
    rw [StreamId.Present, ho]
    exact Option.some_ne_none o

theorem StreamId.Partial.step {r : Req} {x : Resp r} (hd : checkDense 0 (orderedEntries entries) = .ok ())
    (h : StreamId.Partial X K stream entries s t) (hr : StreamId.Migrates X K stream entries r) (hx : B.exec t r x u) :
    StreamId.Partial X K stream entries s u := by
  cases hr with
  | publish hr =>
    have hbeside := hr.beside hx
    refine ⟨fun key hne hkey => (h.beside key hne hkey).trans (hbeside.own hne), fun entry hmem o ho => ?_⟩
    rw [hbeside.lookup StreamId.logKey_ne_tailKey] at ho
    exact h.holds entry hmem o ho
  | @enter entry envelope hmem he hv n =>
    rcases Backend.put_store hx with rfl | ⟨-, e, -, rfl⟩
    · exact h
    rw [Keyspace.pathFrom_of_valid (AtomicKeyspace.validPath_root_append hv)]
    refine ⟨fun key hne hkey => (h.beside key hne hkey).trans (agree_insert (hkey entry hmem)), fun entry' hmem' o ho => ?_⟩
    by_cases hsame : entry'.seq = entry.seq
    · obtain rfl := entry_of_seq hd hmem' hmem hsame
      rw [AList.lookup_insert] at ho
      cases ho
      exact ⟨envelope, he, n, rfl⟩
    · rw [AList.lookup_insert_ne fun hp => hsame (StreamId.logKey_injective (List.append_cancel_left hp))] at ho
      exact h.holds entry' hmem' o ho
  | @evict entry hmem e =>
    rcases Backend.deleteIf_store hx with rfl | ⟨-, rfl⟩
    · exact h
    refine ⟨fun key hne hkey => (h.beside key hne hkey).trans fun p hp => ?_, fun entry' hmem' o ho => ?_⟩
    · rw [AList.lookup_erase_ne]
      rintro rfl
      exact hkey entry hmem (Keyspace.own_root.1 hp).symm
    · by_cases hsame : stream.logKey entry'.seq = stream.logKey entry.seq
      · rw [hsame, AList.lookup_erase] at ho
        cases ho
      · rw [AList.lookup_erase_ne fun hp => hsame (List.append_cancel_left hp)] at ho
        exact h.holds entry' hmem' o ho

theorem incarnationKey_ne_tailKey : Keyspace.incarnationKey (stream.logKey q) ≠ stream.tailKey := fun h => by
  have := congrArg List.length h
  rw [Keyspace.incarnationKey_length, StreamId.logKey_length, StreamId.tailKey_length] at this
  omega

theorem cert_ne_tailKey {f : UInt64} : stream.certPrefix ++ seqComponent f ≠ stream.tailKey := fun h => by
  have := congrArg List.length h
  rw [List.length_append, StreamId.certPrefix_length, StreamId.tailKey_length, seqComponent_length] at this
  omega

section
variable (hb : stream.Blank X K s) (hadm : stream.Admissible X K s entries) (h : StreamId.Partial X K stream entries s u)
include hadm h

/-- Positions that no entry has stay as they are. -/
theorem StreamId.Partial.other (hq : q.toNat = 0 ∨ entries.length < q.toNat) : Agree (K.Own (stream.logKey q)) s u := by
  refine h.beside _ StreamId.logKey_ne_tailKey fun entry hmem hkey => ?_
  obtain ⟨hpos, hle⟩ := seq_of_mem hadm.dense hmem
  rw [← StreamId.logKey_injective hkey] at hpos hle
  omega

include hb

/-- What is left of a run that was cut off is ready for the entries. -/
theorem StreamId.Partial.ready : stream.Ready X K u entries := by
  refine ⟨hadm.dense, fun entry hmem => ?_, fun entry hmem envelope he => ?_, ?_, fun q hq hp => ?_, fun f hf => ?_⟩
  · have hfit : Fit K u (stream.logKey entry.seq) := (hadm.fit entry hmem).agree
      (h.beside _ incarnationKey_ne_tailKey fun _ _ => StreamId.logKey_ne_incarnationKey.symm)
    refine ⟨hadm.encodes entry hmem, hfit, fun envelope he hp => ?_⟩
    obtain ⟨o, ho⟩ := Option.ne_none_iff_exists'.1 hp
    obtain ⟨envelope', he', n, hdata⟩ := h.holds entry hmem o ho
    rw [he.unique he']
    exact Keyspace.seen_inline hfit.path ho hdata
  · obtain ⟨hi, hs⟩ := hadm.typed entry hmem
    exact ⟨envelope, Envelope.decodeAndVerify_encode hadm.named hi hs he⟩
  · obtain ⟨g, seq, hseq, bytes, hbytes, hg⟩ := hb.genesis
    exact ⟨g, seq, hseq, bytes, (found_agree (h.other hadm (.inl hseq))).trans hbytes, hg⟩
  · exact hb.last q (by omega) ((present_agree (h.other hadm (.inr hq))).1 hp)
  · exact hb.within f ((certified_agree (h.beside _ cert_ne_tailKey fun _ _ => StreamId.logKey_ne_cert.symm)).1 hf)

theorem StreamId.Partial.grown : stream.Grown K entries s u where
  kept q hq := h.other hadm (.inl (by
    by_contra hpos
    exact hb.last q (by omega) hq))
  keys key hkey := by
    by_cases htail : key = stream.tailKey
    · exact .inr (.inl htail)
    by_cases hentry : ∃ entry ∈ entries, key = stream.logKey entry.seq
    · exact .inr (.inr hentry)
    push Not at hentry
    exact .inl (mem_keys_agree (h.beside key htail hentry) hkey)

end

/-! ### Runs of one migration -/

/-- From `s` the bucket came to `u` through runs of the migration that were cut off. -/
def StreamId.CutOff (X : Crates) (K : AtomicKeyspace) (stream : StreamId) (entries : List MigrationEntry) : Store → Store → Prop :=
  Relation.ReflTransGen fun s u => ∃ (B : Backend) (fuel : ℕ) (ids : ℕ → Bytes),
    Prog.Cut B.exec (migrateLog X K fuel ids stream entries).run s u

theorem StreamId.CutOff.left (h : StreamId.CutOff X K stream entries s u) (hb : stream.Blank X K s)
    (hd : checkDense 0 (orderedEntries entries) = .ok ()) : StreamId.Partial X K stream entries s u := by
  induction h with
  | refl => exact hb.left hd
  | tail _ hcut ih =>
    obtain ⟨B, fuel, ids, hcut⟩ := hcut
    exact hcut.keep every_migrateLog_migrates (fun _ _ _ _ hJ hr hx => hJ.step hd hr hx) ih

/-- After a migration the log is its entries, and the receipt tells of them. -/
structure StreamId.Exactly (X : Crates) (K : AtomicKeyspace) (t : Store) (stream : StreamId) (entries : List MigrationEntry)
    (receipt : MigrationReceipt) : Prop where
  present : ∀ q : UInt64, 0 < q.toNat → (stream.Present K t q ↔ q.toNat ≤ entries.length)
  numbered : (orderedEntries entries).map (·.seq.toNat) = List.range' 1 entries.length
  events : ∃ envelopes, receipt = migrationReceipt X envelopes ∧ List.Forall₂ (fun entry envelope => Encodes X stream entry envelope ∧
    stream.found X K t entry.seq = .ok (some envelope.encoded)) (orderedEntries entries) envelopes

end

/-! ### Three entries and the genesis -/

/-- A log with a genesis only. -/
def blankStore (bytes : Bytes) : Store :=
  (∅ : Store).insert (Keyspace.letterSpace.root ++ letterStream.logKey 0) ⟨(ValueEnvelope.mk 0 0 bytes).encode, []⟩

theorem lookup_blankStore {bytes : Bytes} {key : Str} (hne : key ≠ letterStream.logKey 0) :
    (blankStore bytes).lookup (Keyspace.letterSpace.root ++ key) = none := by
  rw [blankStore, AList.lookup_insert_ne fun h => hne (List.append_cancel_left h), AList.lookup_empty]

theorem letter_objectKey : Keyspace.letterSpace.objectKey (letterStream.logKey 0) =
    .ok (Keyspace.letterSpace.root ++ letterStream.logKey 0) := by decide +kernel

theorem blank_alone {bytes : Bytes} : letterStream.Alone Keyspace.letterSpace (blankStore bytes) := by
  have honly : ∀ key ∈ Keyspace.letterSpace.keys (blankStore bytes), key = letterStream.logKey 0 := by
    intro key hkey
    by_contra hne
    exact AtomicKeyspace.mem_keys_iff_lookup.1 hkey (lookup_blankStore hne)
  refine ⟨fun key hkey _ => ⟨0, honly key hkey⟩, fun key hkey hpre => ?_⟩
  rw [honly key hkey] at hpre
  exact absurd hpre ((apart_prefixes letter_objectKey).1 0)

theorem blank_letter : ∃ bytes, letterStream.Blank Serde.crates Keyspace.letterSpace (blankStore bytes) := by
  have hlen : (Envelope.bytesOf Serde.crates letterStream 0 genesisSchemaId genesisEventId []).length ≤ maxEncodedEnvelopeBytes := by
    decide +kernel
  obtain ⟨g, hg⟩ := Envelope.encode_of_short hlen
  have hgrammatical : ∀ value : Str, validateSegment "id" value = .ok () → Grammatical value := fun _ => validateSegment_ok.1
  have hverified : Envelope.decodeAndVerify Serde.crates letterStream 0 g.encoded = some g :=
    Envelope.decodeAndVerify_encode (hgrammatical _ (by decide +kernel)) (hgrammatical _ (by decide +kernel))
      (hgrammatical _ (by decide +kernel)) hg
  refine ⟨g.encoded, ⟨g, 0, rfl, g.encoded, ?_, hverified⟩, fun q hq hp => hp (lookup_blankStore fun h => ?_), fun f hf => ?_⟩
  · exact Keyspace.seen_inline letter_objectKey (AList.lookup_insert _) (o := ⟨(ValueEnvelope.mk 0 0 g.encoded).encode, []⟩) rfl
  · rw [StreamId.logKey_injective h] at hq
    exact absurd hq (lt_irrefl _)
  · exact absurd (lookup_blankStore StreamId.logKey_ne_cert.symm) hf

/-- An entry at position `q`. -/
def letterEntry (q : UInt64) : MigrationEntry := ⟨q, ⟨"x".toList⟩, ⟨"e".toList⟩, [7]⟩

/-- Three entries, out of order. -/
def letterEntries : List MigrationEntry :=
  [⟨3, ⟨"x".toList⟩, ⟨"e3".toList⟩, [3, 3]⟩, ⟨1, ⟨"x".toList⟩, ⟨"e1".toList⟩, [1]⟩, ⟨2, ⟨"y".toList⟩, ⟨"e2".toList⟩, []⟩]

theorem letter_admissible {bytes : Bytes} :
    letterStream.Admissible Serde.crates Keyspace.letterSpace (blankStore bytes) letterEntries := by
  have hlen : ∀ entry ∈ letterEntries, (Envelope.bytesOf Serde.crates letterStream entry.seq entry.schemaId entry.stableEventId
      entry.payload).length ≤ maxEncodedEnvelopeBytes := by decide +kernel
  have hopen : ∀ entry ∈ letterEntries, Keyspace.ensureNotReservedKey (letterStream.logKey entry.seq) = .ok () := by decide +kernel
  have hvalid : ∀ entry ∈ letterEntries, validateSegment "id" entry.schemaId.value = .ok () ∧
      validateSegment "id" entry.stableEventId.value = .ok () := by decide +kernel
  have hgrammatical : ∀ value : Str, validateSegment "id" value = .ok () → Grammatical value := fun _ => validateSegment_ok.1
  refine ⟨by decide +kernel, fun entry hmem => Envelope.encode_of_short (hlen entry hmem), fun entry hmem => ?_,
    hgrammatical _ (by decide +kernel), fun entry hmem => ?_⟩
  · have hkey := StreamId.objectKey_logKey letter_objectKey entry.seq
    refine ⟨hopen entry hmem, hkey, 0, ?_⟩
    have hpath := Keyspace.pathFrom_incarnationKey (K := Keyspace.letterSpace) (AtomicKeyspace.objectKey_ok hkey).2
    rw [AtomicKeyspace.counter, hpath, lookup_blankStore StreamId.logKey_ne_incarnationKey.symm]
  · obtain ⟨hschema, hid⟩ := hvalid entry hmem
    exact ⟨hgrammatical _ hschema, hgrammatical _ hid⟩

end YeetzS3.Streams
