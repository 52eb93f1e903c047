import YeetzS3.Keyspace.Placed
import YeetzS3.Streams.Replay

/-!
# What a migration leaves

`migrate_log` run by one caller, nobody else writing: it ends, it changes no event there was, and when it succeeds the log is
its entries. Cut off anywhere it can be run again.
-/

namespace YeetzS3.Streams

open Conc
open Keyspace (AtomicKeyspace Holds Fit Placed seen Unserved)

/-! ### Entries -/

/-- The entries are numbered from `n + 1` on. -/
theorem checkDense_ok {n : ℕ} {entries : List MigrationEntry} :
    checkDense n entries = .ok () ↔ entries.map (·.seq.toNat) = List.range' (n + 1) entries.length := by
  induction entries generalizing n with
  | nil => exact ⟨fun _ => rfl, fun _ => rfl⟩
  | cons entry entries ih =>
    rw [checkDense, List.map_cons, List.length_cons, List.range'_succ]
    constructor
    · intro h
      split at h
      · cases h
      · next hseq => rw [ih.1 h, not_not.1 hseq]
    · intro h
      obtain ⟨hseq, hrest⟩ := List.cons.inj h
      rw [if_neg (not_not.2 hseq), ih]
      exact hrest

section
variable (X : Crates) (K : AtomicKeyspace) (stream : StreamId)

/-- The envelope of an entry. -/
def Encodes (entry : MigrationEntry) (envelope : Envelope) : Prop :=
  Envelope.encode X stream entry.seq entry.schemaId entry.stableEventId entry.payload = .ok envelope

/-- What a migration of these envelopes returns. -/
def migrationReceipt (envelopes : List Envelope) : MigrationReceipt :=
  ⟨UInt64.ofNat envelopes.length, hexEncode (X.sha256 (envelopes.flatMap fun envelope => X.sha256 envelope.encoded))⟩

/-- From `s` to `t` only events of some entries appeared. -/
structure StreamId.Entered (entries : List MigrationEntry) (s t : Store) : Prop where
  kept : ∀ q, stream.Present K s q → Agree (K.Own (stream.logKey q)) s t
  beside : ∀ key, (∀ entry ∈ entries, key ≠ stream.logKey entry.seq) → Agree (K.Own key) s t

/-- The entry can be entered: its position is free, or holds its event. -/
structure StreamId.Takes (s : Store) (entry : MigrationEntry) : Prop where
  encodes : ∃ envelope, Encodes X stream entry envelope
  fit : Fit K s (stream.logKey entry.seq)
  free : ∀ envelope, Encodes X stream entry envelope → stream.Present K s entry.seq →
    stream.found X K s entry.seq = .ok (some envelope.encoded)

/-- The event of an entry. -/
structure StreamId.EntryAt (s : Store) (entry : MigrationEntry) (envelope : Envelope) : Prop where
  encodes : Encodes X stream entry envelope
  found : stream.found X K s entry.seq = .ok (some envelope.encoded)
  fit : Fit K s (stream.logKey entry.seq)

end

section
variable {X : Crates} {K : AtomicKeyspace} {B : Backend} {s t u : Store} {stream : StreamId} {entries entries' : List MigrationEntry}
  {entry : MigrationEntry} {envelope : Envelope} {fuel : ℕ} {ids : ℕ → Bytes} {q : UInt64}

theorem agree_insert {key key' : Str} {o : Object} (hne : key ≠ key') : Agree (K.Own key) s (s.insert (K.root ++ key') o) :=
  Agree.of_insert fun hp => Keyspace.own_apart hne hp (.inl rfl)

theorem present_agree (h : Agree (K.Own (stream.logKey q)) s t) : stream.Present K t q ↔ stream.Present K s q := by
  rw [StreamId.Present, StreamId.Present, h _ (.inl rfl)]

namespace StreamId.Entered

theorem refl (s : Store) : stream.Entered K entries s s := ⟨fun _ _ => Agree.refl s, fun _ _ => Agree.refl s⟩

theorem trans (h : stream.Entered K entries s t) (h' : stream.Entered K entries' t u) : stream.Entered K (entries ++ entries') s u where
  kept q hq := (h.kept q hq).trans (h'.kept q ((present_agree (h.kept q hq)).2 hq))
  beside key hkey := (h.beside key fun e he => hkey e (List.mem_append_left _ he)).trans
    (h'.beside key fun e he => hkey e (List.mem_append_right _ he))

theorem insert {o : Object} (hn : s.lookup (K.root ++ stream.logKey entry.seq) = none) :
    stream.Entered K [entry] s (s.insert (K.root ++ stream.logKey entry.seq) o) where
  kept q hq := by
    refine agree_insert fun h => ?_
    rw [StreamId.Present, h] at hq
    exact hq hn
  beside key hkey := agree_insert (hkey entry (List.mem_singleton.2 rfl))

end StreamId.Entered

/-! ### One entry -/

theorem found_agree (h : Agree (K.Own (stream.logKey q)) s t) : stream.found X K t q = stream.found X K s q := Keyspace.seen_agree h

theorem fit_beside (hb : ∀ key, (∀ entry ∈ entries, key ≠ stream.logKey entry.seq) → Agree (K.Own key) s t)
    (h : Fit K s (stream.logKey q)) : Fit K t (stream.logKey q) :=
  h.agree (hb _ fun _ _ => StreamId.logKey_ne_incarnationKey.symm)

/-- How the writing of an entry ends. -/
structure StreamId.Tried (X : Crates) (K : AtomicKeyspace) (B : Backend) (stream : StreamId) (entry : MigrationEntry) (s : Store)
    (r : Except StreamsError Envelope) (t : Store) : Prop where
  entered : stream.Entered K [entry] s t
  landed : ∀ envelope, r = .ok envelope → stream.EntryAt X K t entry envelope
  succeeds : ¬ B.faults → stream.Takes X K s entry → ∃ envelope, r = .ok envelope

/-- An entry is entered, or found at its position. -/
theorem ends_migrateEntry : (migrateEntry X K fuel ids stream entry).run.Ends B.exec (stream.Tried X K B entry s) s := by
  unfold migrateEntry
  cases he : Envelope.encode X stream entry.seq entry.schemaId entry.stableEventId entry.payload with
  | error e =>
    refine ⟨.refl s, nofun, fun _ htakes => ?_⟩
    obtain ⟨envelope, h⟩ := htakes.encodes
    rw [Encodes, he] at h
    cases h
  | ok envelope =>
  show (Op.attempt _ >>= _ : StreamOp Envelope).run.Ends _ _ s
  refine Prog.ends_attempt_bind.2 ((Keyspace.ends_create (encoded_short he)).imp ?_)
  intro r t hplaced
  cases hplaced with
  | @landed o hfit hn ho =>
    have hentered : stream.Entered K [entry] s (s.insert (K.root ++ stream.logKey entry.seq) o) := .insert hn
    obtain ⟨n, ho⟩ := ho
    refine ⟨hentered, fun _ => ?_, fun _ _ => ⟨envelope, rfl⟩⟩
    rintro ⟨⟩
    exact ⟨he, Keyspace.seen_inline hfit.path (AList.lookup_insert _) ho, fit_beside hentered.beside hfit⟩
  | taken hfit hp =>
    refine Prog.ends_bindE.2 (Prog.ends_attempt_bind.2 ((ends_found entry.seq).imp ?_))
    rintro (e | _ | existing) t ⟨rfl, hfound⟩
    · refine ⟨.refl t, nofun, fun hf htakes => ?_⟩
      rw [htakes.free envelope he hp] at hfound
      rcases hfound with hfound | ⟨hf', -⟩
      · cases hfound
      · exact absurd hf' hf
    · refine ⟨.refl t, nofun, fun hf htakes => ?_⟩
      rw [htakes.free envelope he hp] at hfound
      rcases hfound with hfound | ⟨hf', -⟩
      · cases hfound
      · exact absurd hf' hf
    · have hexisting : stream.found X K t entry.seq = .ok (some existing) := by
        rcases hfound with hfound | ⟨-, e, -, hfound⟩
        · exact hfound.symm
        · cases hfound
      show (check (checkLanded X stream envelope existing) >>= fun _ => pure envelope : StreamOp Envelope).run.Ends B.exec _ t
      unfold checkLanded
      split
      · next hsame =>
        refine ⟨.refl t, fun _ => ?_, fun _ _ => ⟨envelope, rfl⟩⟩
        rintro ⟨⟩
        exact ⟨he, hsame ▸ hexisting, hfit⟩
      · next hother =>
        have htold : ¬ stream.Takes X K t entry := fun htakes => hother (by
          have := htakes.free envelope he hp
          rw [hexisting] at this
          exact Option.some.inj (Except.ok.inj this))
        split
        · exact ⟨.refl t, nofun, fun _ htakes => absurd htakes htold⟩
        · exact ⟨.refl t, nofun, fun _ htakes => absurd htakes htold⟩
  | @refused e hne h =>
    have hfail : stream.Tried X K B entry s (.error (.unavailable "migrate_log: create")) s :=
      ⟨.refl s, nofun, fun hf htakes => absurd htakes.fit (h.resolve_left hf)⟩
    cases e
    case alreadyExists k => exact absurd rfl (hne k)
    all_goals exact hfail
  | @unknown o e hn ho hne hf =>
    have hfail : stream.Tried X K B entry s (.error (.unavailable "migrate_log: create")) (s.insert (K.root ++ stream.logKey entry.seq) o) :=
      ⟨.insert hn, nofun, fun hf' => absurd hf hf'⟩
    cases e
    case alreadyExists k => exact absurd rfl (hne k)
    all_goals exact hfail

/-! ### All entries -/

theorem StreamId.EntryAt.present (h : stream.EntryAt X K s entry envelope) : stream.Present K s entry.seq := present_of_found h.found

/-- Events stay as they are. -/
theorem StreamId.EntryAt.entered (h : stream.EntryAt X K s entry envelope) (he : stream.Entered K entries s t) :
    stream.EntryAt X K t entry envelope :=
  ⟨h.encodes, (found_agree (he.kept _ h.present)).trans h.found, fit_beside he.beside h.fit⟩

theorem StreamId.Takes.entered (h : stream.Takes X K s entry) (he : stream.Entered K entries s t) (hne : ∀ e ∈ entries, entry.seq ≠ e.seq) :
    stream.Takes X K t entry := by
  have ha : Agree (K.Own (stream.logKey entry.seq)) s t := he.beside _ fun e hmem hk => hne e hmem (StreamId.logKey_injective hk)
  refine ⟨h.encodes, fit_beside he.beside h.fit, fun envelope henc hp => ?_⟩
  rw [found_agree ha]
  exact h.free envelope henc ((present_agree ha).1 hp)

/-- How the writing of all entries ends. -/
structure StreamId.TriedAll (X : Crates) (K : AtomicKeyspace) (B : Backend) (stream : StreamId) (entries : List MigrationEntry) (s : Store)
    (r : Except StreamsError (List Envelope)) (t : Store) : Prop where
  entered : stream.Entered K entries s t
  landed : ∀ envelopes, r = .ok envelopes → List.Forall₂ (stream.EntryAt X K t) entries envelopes
  succeeds : ¬ B.faults → (∀ entry ∈ entries, stream.Takes X K s entry) → ∃ envelopes, r = .ok envelopes

theorem ends_migrateEntries (hne : entries.Pairwise fun a b => a.seq ≠ b.seq) :
    (migrateEntries X K fuel ids stream entries).run.Ends B.exec (stream.TriedAll X K B entries s) s := by
  induction entries generalizing s with
  | nil =>
    refine ⟨.refl s, ?_, fun _ _ => ⟨[], rfl⟩⟩
    rintro _ ⟨⟩
    exact .nil
  | cons entry entries ih =>
    obtain ⟨hfirst, hrest⟩ := List.pairwise_cons.1 hne
    refine Prog.ends_bindE.2 (ends_migrateEntry.imp ?_)
    rintro (e | envelope) t htried
    · refine ⟨htried.entered.trans (StreamId.Entered.refl t : stream.Entered K entries t t), nofun, fun hf htakes => ?_⟩
      obtain ⟨envelope, h⟩ := htried.succeeds hf (htakes entry List.mem_cons_self)
      cases h
    have hat := htried.landed envelope rfl
    refine Prog.ends_bindE.2 ((ih hrest).imp ?_)
    rintro (e | envelopes) u hall
    · refine ⟨htried.entered.trans hall.entered, nofun, fun hf htakes => ?_⟩
      obtain ⟨envelopes, h⟩ := hall.succeeds hf fun e he => (htakes e (List.mem_cons_of_mem _ he)).entered htried.entered fun e' he' => by
        rw [List.mem_singleton.1 he']
        exact (hfirst e he).symm
      cases h
    · refine ⟨htried.entered.trans hall.entered, fun _ => ?_, fun _ _ => ⟨_, rfl⟩⟩
      rintro ⟨⟩
      exact .cons (hat.entered hall.entered) (hall.landed envelopes rfl)

/-! ### The rest of the stream -/

/-- Events and hints do not begin like certificates, nor the hint like an event. -/
theorem apart_prefixes {path : Str} (hk : K.objectKey (stream.logKey q) = .ok path) :
    (∀ q', ¬ Keyspace.floorStart stream.value <+: stream.logKey q') ∧ ¬ Keyspace.floorStart stream.value <+: stream.tailKey ∧
      ¬ stream.logPrefix <+: stream.tailKey := by
  rw [(floorStart_valid hk).1]
  unfold StreamId.logKey StreamId.logPrefix StreamId.tailKey
  rw [show "trims".toList = ['t', 'r', 'i', 'm', 's'] from rfl, show "/log/".toList = ['/', 'l', 'o', 'g', '/'] from rfl,
    show "/tail".toList = ['/', 't', 'a', 'i', 'l'] from rfl]
  refine ⟨fun q' => ?_, ?_, ?_⟩
  · rw [List.append_assoc, List.prefix_append_right_inj]
    simp
  · rw [List.prefix_append_right_inj]
    simp
  · rw [List.prefix_append_right_inj]
    simp

/-- A stream stays alone while only its events and its hint appear. -/
theorem StreamId.Alone.grown {path : Str} (ha : stream.Alone K s) (hk : K.objectKey (stream.logKey q) = .ok path)
    (h : ∀ key ∈ K.keys t, key ∈ K.keys s ∨ key = stream.tailKey ∨ ∃ q, key = stream.logKey q) : stream.Alone K t where
  events key hkey hpre := by
    rcases h key hkey with hin | rfl | ⟨q, rfl⟩
    · exact ha.events key hin hpre
    · exact absurd hpre (apart_prefixes hk).2.2
    · exact ⟨q, rfl⟩
  certificates key hkey hpre := by
    rcases h key hkey with hin | rfl | ⟨q, rfl⟩
    · exact ha.certificates key hin hpre
    · exact absurd hpre (apart_prefixes hk).2.1
    · exact absurd hpre ((apart_prefixes hk).1 q)

theorem mem_keys_agree {key : Str} (h : Agree (K.Own key) s t) (hk : key ∈ K.keys t) : key ∈ K.keys s := by
  rw [AtomicKeyspace.mem_keys_iff_lookup, h _ (.inl rfl)] at hk
  exact AtomicKeyspace.mem_keys_iff_lookup.2 hk

theorem StreamId.Entered.mem_keys {key : Str} (he : stream.Entered K entries s t) (hk : key ∈ K.keys t) :
    key ∈ K.keys s ∨ ∃ entry ∈ entries, key = stream.logKey entry.seq := by
  by_cases h : ∃ entry ∈ entries, key = stream.logKey entry.seq
  · exact .inr h
  · push Not at h
    exact .inl (mem_keys_agree (he.beside key h) hk)

theorem StreamId.Entered.length_keys (he : stream.Entered K entries s t) : (K.keys t).length ≤ (K.keys s).length + entries.length := by
  have hsub : K.keys t ⊆ K.keys s ++ entries.map fun entry => stream.logKey entry.seq := by
    intro key hk
    rcases he.mem_keys hk with h | ⟨entry, hmem, rfl⟩
    · exact List.mem_append_left _ h
    · exact List.mem_append_right _ (List.mem_map_of_mem hmem)
  have := (AtomicKeyspace.nodup_keys.subperm hsub).length_le
  rwa [List.length_append, List.length_map] at this

theorem certified_agree {f : UInt64} (h : Agree (K.Own (stream.certPrefix ++ seqComponent f)) s t) :
    K.Certified t stream.certPrefix f ↔ K.Certified s stream.certPrefix f := by
  rw [AtomicKeyspace.Certified, AtomicKeyspace.Certified, h _ (.inl rfl)]

theorem StreamId.Entered.within {n : ℕ} (he : stream.Entered K entries s t) : stream.Within K t n ↔ stream.Within K s n :=
  forall_congr' fun f => by rw [certified_agree (he.beside _ fun entry _ h => StreamId.logKey_ne_cert h.symm)]

/-! ### The hint -/

section
variable (h : stream.Hinted K s t)
include h

theorem hinted_event (q : UInt64) : Agree (K.Own (stream.logKey q)) s t := h.own StreamId.logKey_ne_tailKey

theorem hinted_eventAt {n : ℕ} {e : Envelope} : stream.EventAt X K t n e ↔ stream.EventAt X K s n e :=
  exists_congr fun q => by rw [found_agree (hinted_event h q)]

theorem hinted_slice {n : ℕ} {events : List Envelope} : stream.Slice X K t n events ↔ stream.Slice X K s n events := by
  induction events generalizing n with
  | nil => exact Iff.rfl
  | cons e events ih =>
    rw [StreamId.Slice, StreamId.Slice, ih, hinted_eventAt h]

theorem hinted_last {n : ℕ} : stream.Last K t n ↔ stream.Last K s n :=
  forall_congr' fun q => by rw [present_agree (hinted_event h q)]

theorem hinted_within {n : ℕ} : stream.Within K t n ↔ stream.Within K s n := by
  refine forall_congr' fun f => ?_
  have hne : stream.certPrefix ++ seqComponent f ≠ stream.tailKey := fun he => by
    have := congrArg List.length he
    rw [List.length_append, StreamId.certPrefix_length, StreamId.tailKey_length, seqComponent_length] at this
    omega
  rw [certified_agree (h.own hne)]

theorem hinted_alone {path : Str} (hk : K.objectKey (stream.logKey q) = .ok path) (ha : stream.Alone K s) : stream.Alone K t :=
  ha.grown hk fun key hkey => by
    rcases h.mem_keys hkey with he | hin
    · exact .inr (.inl he)
    · exact .inl hin

end

/-! ### The log read back -/

/-- The events of a slice are numbered one by one. -/
theorem slice_seqs {n : ℕ} {events : List Envelope} (h : stream.Slice X K s n events) :
    events.map (·.seq.toNat) = List.range' n events.length := by
  induction events generalizing n with
  | nil => rfl
  | cons e events ih => rw [List.map_cons, List.length_cons, List.range'_succ, h.1.seq_eq, ih h.2]

theorem slice_present {n : ℕ} {events : List Envelope} (h : stream.Slice X K s n events) (hn : n ≤ q.toNat) (hq : q.toNat < n + events.length) :
    ∃ e ∈ events, e.seq = q ∧ stream.EventAt X K s q.toNat e := by
  induction events generalizing n with
  | nil => exact absurd hq (by rw [List.length_nil]; omega)
  | cons e events ih =>
    rw [List.length_cons] at hq
    rcases hn.lt_or_eq with hlt | rfl
    · obtain ⟨e', he', h'⟩ := ih h.2 hlt (by omega)
      exact ⟨e', List.mem_cons_of_mem _ he', h'⟩
    · exact ⟨e, List.mem_cons_self, UInt64.toNat_inj.1 h.1.seq_eq, h.1⟩

/-- A slice is no longer than there are keys. -/
theorem length_slice_le {n : ℕ} {events : List Envelope} (h : stream.Slice X K s n events) : events.length ≤ (K.keys s).length := by
  have hnodup : (events.map fun e => stream.logKey e.seq).Nodup := by
    have hseqs : (events.map fun e => e.seq.toNat).Nodup := by
      rw [slice_seqs h]
      exact List.nodup_range'
    rw [show (events.map fun e => stream.logKey e.seq) = (events.map (·.seq)).map stream.logKey by rw [List.map_map]; rfl]
    refine List.Nodup.map StreamId.logKey_injective ?_
    refine List.Nodup.of_map UInt64.toNat ?_
    rw [List.map_map]
    exact hseqs
  have hsub : (events.map fun e => stream.logKey e.seq) ⊆ K.keys s := by
    intro key hkey
    obtain ⟨e, he, rfl⟩ := List.mem_map.1 hkey
    have hmem : e.seq.toNat ∈ events.map (·.seq.toNat) := List.mem_map_of_mem he
    rw [slice_seqs h, List.mem_range'_1] at hmem
    obtain ⟨e', -, -, hev⟩ := slice_present h hmem.1 hmem.2
    exact AtomicKeyspace.mem_keys_iff_lookup.2 hev.present
  have := (hnodup.subperm hsub).length_le
  rwa [List.length_map] at this

theorem checkPage_slice {after : UInt64} {events : List Envelope} (h : stream.Slice X K s (after.toNat + 1) events) :
    ∃ last, checkPage after events = .ok last ∧ last.toNat = after.toNat + events.length := by
  induction events generalizing after with
  | nil => exact ⟨after, rfl, rfl⟩
  | cons e events ih =>
    have hseq : e.seq.toNat = after.toNat + 1 := h.1.seq_eq
    have hlt := e.seq.toNat_lt
    have hsucc : e.seq = after + 1 := UInt64.toNat_inj.1 (by rw [hseq, toNat_succ_of_lt (by omega)])
    obtain ⟨last, hlast, hlen⟩ := @ih e.seq (by rw [hseq]; exact h.2)
    refine ⟨last, ?_, ?_⟩
    · rw [checkPage, if_neg (not_not.2 hsucc), hlast]
    · rw [hlen, List.length_cons]
      omega

/-- The log is the genesis and `n` events, none of them trimmed. -/
structure StreamId.Whole (X : Crates) (K : AtomicKeyspace) (s : Store) (stream : StreamId) (n : ℕ) : Prop where
  genesis : ∃ e, stream.EventAt X K s 0 e
  events : ∃ events, stream.Slice X K s 1 events ∧ events.length = n
  last : stream.Last K s n
  within : stream.Within K s 1

/-- How the read-back of a log ends. -/
structure StreamId.ReadBack (X : Crates) (K : AtomicKeyspace) (B : Backend) (stream : StreamId) (s : Store) (r : Except StreamsError UInt64)
    (t : Store) : Prop where
  hinted : stream.Hinted K s t
  read : ∀ last, r = .ok last → (∃ events, stream.Slice X K s 1 events ∧ events.length = last.toNat) ∧ stream.Last K s last.toNat ∧
    stream.Within K s 1
  succeeds : ¬ B.faults → ∀ n, stream.Whole X K s n → ∃ last, r = .ok last

theorem not_endless {start : UInt64} (h : ¬ stream.Present K s maxSeq) : ¬ stream.Endless X K s start := by
  intro hn
  obtain ⟨bytes, hb⟩ := hn.hits 64
  have hprobe : satAdd start (spanAt 64) = maxSeq := by
    have hmax : maxSeq.toNat = 18446744073709551615 := by decide
    rw [show spanAt 64 = maxSeq from spanAt_stays 0, satAdd]
    split
    · next hlt =>
      rw [← UInt64.toNat_inj, UInt64.toNat_add, Nat.mod_eq_of_lt hlt]
      omega
    · rfl
  rw [hprobe] at hb
  exact h (present_of_found hb)

/-- In a whole log a read refuses nothing. -/
theorem StreamId.Whole.told {limit after n : ℕ} {replay : Replay} {path : Str} (hw : stream.Whole X K s n) (ha : stream.Alone K s)
    (hk : K.objectKey (stream.logKey q) = .ok path) (hf : ¬ B.faults) (hlimit : limit ≠ 0) (h : stream.Says X K B s limit after replay) :
    (∃ events complete, replay = .page events complete) ∨ replay = .empty := by
  obtain ⟨g, seq, hseq, bytes, hb, hg⟩ := hw.genesis
  obtain rfl : seq = 0 := UInt64.toNat_inj.1 hseq
  obtain ⟨events, hslice, hlen⟩ := hw.events
  -- what is there is an event of the slice
  have hverified : ∀ q, stream.Present K s q → ∃ bytes e, stream.found X K s q = .ok (some bytes) ∧ Envelope.decodeAndVerify X stream q bytes = some e := by
    intro q hq
    by_cases hz : q.toNat = 0
    · obtain rfl : q = 0 := UInt64.toNat_inj.1 hz
      exact ⟨bytes, g, hb, hg⟩
    · have hle : ¬ n < q.toNat := fun hlt => hw.last q hlt hq
      obtain ⟨e, -, -, r, hr, bytes, hb, hd⟩ := slice_present (q := q) hslice (by omega) (by omega)
      obtain rfl := UInt64.toNat_inj.1 hr
      exact ⟨bytes, e, hb, hd⟩
  have hread : ∀ q e, stream.found X K s q ≠ .error e := by
    intro q e he
    by_cases hp : stream.Present K s q
    · obtain ⟨bytes, _, hb, -⟩ := hverified q hp
      rw [he] at hb
      cases hb
    · rw [(found_eq_none hk).2 hp] at he
      cases he
  cases h with
  | page => exact .inl ⟨_, _, rfl⟩
  | empty => exact .inr rfl
  | @hole _ q' next _ _ _ hq hnone hnext =>
    have hle : ¬ n < next.toNat := fun hlt => hw.last next hlt hnext.present
    have hlt := hnext.behind
    obtain ⟨e, -, -, hev⟩ := slice_present (q := q') hslice (by omega) (by omega)
    exact absurd hev.present hnone
  | damaged _ _ _ _ hb hd =>
    obtain ⟨bytes, e, hb', hd'⟩ := hverified _ (present_of_found hb)
    rw [hb] at hb'
    cases hb'
    rw [hd] at hd'
    cases hd'
  | ungrounded hb' hd =>
    rw [hb] at hb'
    cases hb'
    rw [hd] at hg
    cases hg
  | notFound hn =>
    rw [hb] at hn
    cases hn
  | expired hmax hlt =>
    have := hw.within _ hmax.1
    omega
  | failed h => exact absurd h hf
  | unopened he => exact absurd he (hread 0 _)
  | unread _ _ _ _ he => exact absurd he (hread _ _)
  | floorless h => exact absurd h (ha.floor hw.within hk)
  | unqualified h => exact absurd h (not_or.2 ⟨hf, hlimit⟩)

theorem ends_readBackLoop {path : Str} {rounds : ℕ} {after : UInt64} {read : List Envelope} (ho : ¬ B.omits) (ha : stream.Alone K s)
    (hk : K.objectKey (stream.logKey q) = .ok path) (hmax : ¬ stream.Present K s maxSeq) (hfuel : (K.keys s).length + 2 < fuel)
    (hrounds : 65 < fuel) (ht : stream.Hinted K s t) (hread : stream.Slice X K s 1 read) (hlen : read.length = after.toNat)
    (hmore : (K.keys s).length < rounds + after.toNat) (hw : after = 0 ∨ stream.Within K s 1) :
    (readBackLoop X K fuel ids stream rounds after).run.Ends B.exec (stream.ReadBack X K B s) t := by
  induction rounds generalizing after read t with
  | zero =>
    have := length_slice_le hread
    omega
  | succ rounds ih =>
    have hkeys := ht.length_keys
    have hend : ∀ start, ¬ stream.Endless X K t start := fun start => not_endless fun h => hmax ((present_agree (hinted_event ht _)).1 h)
    have hends : (Streams.read X K fuel ids stream after 256).Ends B.exec (fun _ u => stream.Hinted K t u) t :=
      ends_read (by omega) hrounds fun _ _ _ _ => hend _
    have htells := hends.and (hends.of_runs fun replay u hr => runs_read ho (hinted_alone ht hk ha) (by omega) hr)
    refine Prog.ends_lift_bind.2 (htells.imp ?_)
    rintro replay u ⟨hu, htells⟩
    have hsu : stream.Hinted K s u := ht.trans hu
    -- what a whole log does not answer
    have hrefused : ∀ e, (∀ events complete, replay ≠ .page events complete) → replay ≠ .empty → stream.ReadBack X K B s (.error e) u := by
      refine fun e hpage hempty => ⟨hsu, nofun, fun hf n hwhole => ?_⟩
      have hwhole' : stream.Whole X K t n := by
        obtain ⟨⟨g, hg⟩, ⟨events, hslice, hlen⟩, hlast, hwithin⟩ := hwhole
        refine ⟨⟨g, ?_⟩, ⟨events, (hinted_slice ht).2 hslice, hlen⟩, (hinted_last ht).2 hlast, (hinted_within ht).2 hwithin⟩
        exact (hinted_eventAt ht).2 hg
      rcases hwhole'.told (hinted_alone ht hk ha) hk hf (by decide) htells with ⟨events, complete, h⟩ | h
      · exact absurd h (hpage events complete)
      · exact absurd h hempty
    cases htells with
    | @page events complete hwithin he hne hl hc =>
      have he' : stream.Slice X K s 1 (read ++ events) := by
        rw [StreamId.slice_append]
        refine ⟨hread, ?_⟩
        rw [hlen, Nat.add_comm]
        exact (hinted_slice ht).1 he
      obtain ⟨last, hcheck, hlast⟩ := checkPage_slice he
      have hlen' : (read ++ events).length = last.toNat := by
        rw [List.length_append, hlast, hlen]
      have hw' : stream.Within K s 1 := by
        rcases hw with rfl | hw
        · exact (hinted_within ht).1 hwithin
        · exact hw
      show (check ((checkPage after events).map fun after => (after, complete)) >>= _ : StreamOp UInt64).run.Ends _ _ u
      rw [hcheck]
      cases complete with
      | true =>
        refine ⟨hsu, fun _ => ?_, fun _ _ _ => ⟨last, rfl⟩⟩
        rintro ⟨⟩
        exact ⟨⟨_, he', hlen'⟩, hlast ▸ (hinted_last ht).1 (hc (.inl rfl)), hw'⟩
      | false =>
        have hpos : 0 < events.length := List.length_pos_iff.2 hne
        exact ih hsu he' hlen' (by omega) (.inr hw')
    | empty hwithin hlast =>
      refine ⟨hsu, fun _ => ?_, fun _ _ _ => ⟨after, rfl⟩⟩
      rintro ⟨⟩
      refine ⟨⟨_, hread, hlen⟩, (hinted_last ht).1 hlast, ?_⟩
      rcases hw with rfl | hw
      · exact (hinted_within ht).1 (hwithin (by decide))
      · exact hw
    | _ => exact hrefused _ nofun nofun

/-! ### The whole call -/

theorem ends_verifyMigrationGenesis : (verifyMigrationGenesis X K stream).run.Ends B.exec (fun r t => t = s ∧
    (r = .ok () → ∃ e, stream.EventAt X K s 0 e) ∧ (¬ B.faults → (∃ e, stream.EventAt X K s 0 e) → r = .ok ())) s := by
  refine Prog.ends_attempt_bind.2 ((ends_found 0).imp ?_)
  intro r t hr
  obtain ⟨rfl, hfound⟩ := hr
  have hno : ∀ e, (¬ ∃ bytes, r = .ok (some bytes)) → t = t ∧ ((Except.error e : Except StreamsError Unit) = .ok () → ∃ e, stream.EventAt X K t 0 e) ∧
      (¬ B.faults → (∃ e, stream.EventAt X K t 0 e) → (Except.error e : Except StreamsError Unit) = .ok ()) := by
    refine fun e hn => ⟨rfl, nofun, ?_⟩
    rintro hf ⟨g, seq, hseq, bytes, hb, -⟩
    obtain rfl : seq = 0 := UInt64.toNat_inj.1 hseq
    rcases hfound with rfl | ⟨hf', -⟩
    · exact absurd ⟨bytes, hb⟩ hn
    · exact absurd hf' hf
  rcases r with e | _ | bytes
  · cases e <;> exact hno _ nofun
  · exact hno _ nofun
  · have hb : stream.found X K t 0 = .ok (some bytes) := by
      rcases hfound with hfound | ⟨-, e, -, hfound⟩
      · exact hfound.symm
      · cases hfound
    show (check (verify X stream 0 bytes) >>= fun _ => pure () : StreamOp Unit).run.Ends _ _ t
    unfold verify
    cases hd : Envelope.decodeAndVerify X stream 0 bytes with
    | some g => exact ⟨rfl, fun _ => ⟨g, 0, rfl, bytes, hb, hd⟩, fun _ _ => rfl⟩
    | none =>
      refine ⟨rfl, nofun, ?_⟩
      rintro - ⟨g, seq, hseq, bytes', hb', hd'⟩
      obtain rfl : seq = 0 := UInt64.toNat_inj.1 hseq
      rw [hb] at hb'
      cases hb'
      rw [hd] at hd'
      cases hd'

/-- The log can take the entries: each of them is there or free, and nothing else is. -/
structure StreamId.Ready (X : Crates) (K : AtomicKeyspace) (s : Store) (stream : StreamId) (entries : List MigrationEntry) : Prop where
  dense : checkDense 0 (orderedEntries entries) = .ok ()
  takes : ∀ entry ∈ entries, stream.Takes X K s entry
  verifies : ∀ entry ∈ entries, ∀ envelope, Encodes X stream entry envelope →
    ∃ e, Envelope.decodeAndVerify X stream entry.seq envelope.encoded = some e
  genesis : ∃ e, stream.EventAt X K s 0 e
  last : stream.Last K s entries.length
  within : stream.Within K s 1

/-- From `s` to `t` no event changed, and only the events of the entries and the hint appeared. -/
structure StreamId.Grown (K : AtomicKeyspace) (stream : StreamId) (entries : List MigrationEntry) (s t : Store) : Prop where
  kept : ∀ q, stream.Present K s q → Agree (K.Own (stream.logKey q)) s t
  keys : ∀ key ∈ K.keys t, key ∈ K.keys s ∨ key = stream.tailKey ∨ ∃ entry ∈ entries, key = stream.logKey entry.seq

/-- How a migration ends. -/
structure StreamId.Migrated (X : Crates) (K : AtomicKeyspace) (B : Backend) (stream : StreamId) (entries : List MigrationEntry) (s : Store)
    (r : Except StreamsError MigrationReceipt) (t : Store) : Prop where
  grown : stream.Grown K entries s t
  landed : ∀ receipt, r = .ok receipt → checkDense 0 (orderedEntries entries) = .ok () ∧ stream.Whole X K t entries.length ∧
    ∃ envelopes, List.Forall₂ (stream.EntryAt X K t) (orderedEntries entries) envelopes ∧ receipt = migrationReceipt X envelopes
  succeeds : ¬ B.faults → stream.Ready X K s entries → ∃ receipt, r = .ok receipt

theorem mem_orderedEntries : entry ∈ orderedEntries entries ↔ entry ∈ entries := List.mem_insertionSort _

theorem length_orderedEntries : (orderedEntries entries).length = entries.length := List.length_insertionSort ..

theorem StreamId.Entered.grown (he : stream.Entered K (orderedEntries entries) s t) (hh : stream.Hinted K t u) : stream.Grown K entries s u where
  kept q hq := (he.kept q hq).trans (hinted_event hh q)
  keys key hkey := by
    rcases hh.mem_keys hkey with h | hkey
    · exact .inr (.inl h)
    rcases he.mem_keys hkey with h | ⟨entry, hmem, h⟩
    · exact .inl h
    · exact .inr (.inr ⟨entry, mem_orderedEntries.1 hmem, h⟩)

theorem StreamId.Grown.refl (s : Store) : stream.Grown K entries s s := ⟨fun _ _ => Agree.refl s, fun _ h => .inl h⟩

theorem StreamId.Grown.length_keys (h : stream.Grown K entries s t) : (K.keys t).length ≤ (K.keys s).length + entries.length + 1 := by
  have hsub : K.keys t ⊆ K.keys s ++ (stream.tailKey :: entries.map fun entry => stream.logKey entry.seq) := by
    intro key hk
    rcases h.keys key hk with h | rfl | ⟨entry, hmem, rfl⟩
    · exact List.mem_append_left _ h
    · exact List.mem_append_right _ List.mem_cons_self
    · exact List.mem_append_right _ (List.mem_cons_of_mem _ (List.mem_map_of_mem hmem))
  have := (AtomicKeyspace.nodup_keys.subperm hsub).length_le
  rw [List.length_append, List.length_cons, List.length_map] at this
  omega

/-- Entries that are dense are apart, and numbered up to their count. -/
theorem dense_seqs {n : ℕ} (h : checkDense n entries = .ok ()) : (entries.Pairwise fun a b => a.seq ≠ b.seq) ∧
    ∀ entry ∈ entries, n < entry.seq.toNat ∧ entry.seq.toNat ≤ n + entries.length := by
  have hseqs := checkDense_ok.1 h
  constructor
  · have hlt := @List.pairwise_lt_range' (n + 1) entries.length 1 Nat.one_pos
    rw [← hseqs, List.pairwise_map] at hlt
    exact hlt.imp fun h he => by
      rw [he] at h
      exact absurd h (lt_irrefl _)
  · intro entry he
    have hmem : entry.seq.toNat ∈ entries.map (·.seq.toNat) := List.mem_map_of_mem he
    rw [hseqs, List.mem_range'_1] at hmem
    omega

/-- The entries of a log are a slice of it. -/
theorem slice_of_entries {n : ℕ} {envelopes : List Envelope} (hall : List.Forall₂ (stream.EntryAt X K s) entries envelopes)
    (hd : checkDense n entries = .ok ()) (hv : ∀ entry ∈ entries, ∀ envelope, Encodes X stream entry envelope →
      ∃ e, Envelope.decodeAndVerify X stream entry.seq envelope.encoded = some e) :
    ∃ events, stream.Slice X K s (n + 1) events ∧ events.length = entries.length := by
  induction hall generalizing n with
  | nil => exact ⟨[], trivial, rfl⟩
  | @cons entry envelope entries envelopes hat hall ih =>
    rw [checkDense] at hd
    split at hd
    · cases hd
    next hseq =>
    obtain ⟨events, hslice, hlen⟩ := ih hd fun e he => hv e (List.mem_cons_of_mem _ he)
    obtain ⟨e, he⟩ := hv entry List.mem_cons_self envelope hat.encodes
    refine ⟨e :: events, ⟨⟨entry.seq, not_not.1 hseq, _, hat.found, he⟩, hslice⟩, ?_⟩
    rw [List.length_cons, List.length_cons, hlen]

theorem StreamId.Whole.hinted {n : ℕ} (hw : stream.Whole X K s n) (h : stream.Hinted K s t) : stream.Whole X K t n := by
  obtain ⟨⟨g, hg⟩, ⟨events, hslice, hlen⟩, hlast, hwithin⟩ := hw
  refine ⟨⟨g, ?_⟩, ⟨events, (hinted_slice h).2 hslice, hlen⟩, (hinted_last h).2 hlast, (hinted_within h).2 hwithin⟩
  exact (hinted_eventAt h).2 hg

theorem StreamId.EntryAt.hinted (hat : stream.EntryAt X K s entry envelope) (h : stream.Hinted K s t) : stream.EntryAt X K t entry envelope := by
  have hne : Keyspace.incarnationKey (stream.logKey entry.seq) ≠ stream.tailKey := fun he => by
    have := congrArg List.length he
    rw [Keyspace.incarnationKey_length, StreamId.logKey_length, StreamId.tailKey_length] at this
    omega
  exact ⟨hat.encodes, (found_agree (hinted_event h _)).trans hat.found, hat.fit.agree (h.own hne)⟩

/-- A log holds one number of events. -/
theorem StreamId.Whole.unique {n m : ℕ} {events : List Envelope} (hw : stream.Whole X K s n) (hslice : stream.Slice X K s 1 events)
    (hlen : events.length = m) (hm : m < 2 ^ 64) (hlast : stream.Last K s m) : m = n := by
  obtain ⟨events', hslice', hlen'⟩ := hw.events
  rcases Nat.lt_trichotomy m n with hlt | rfl | hlt
  · have hq : (UInt64.ofNat (m + 1)).toNat = m + 1 := by
      have hle := length_slice_le hslice'
      have hmem : m + 1 ∈ events'.map (·.seq.toNat) := by
        rw [slice_seqs hslice', List.mem_range'_1]
        omega
      obtain ⟨e, -, he⟩ := List.mem_map.1 hmem
      have := e.seq.toNat_lt
      exact UInt64.toNat_ofNat_of_lt' (show m + 1 < 2 ^ 64 by omega)
    obtain ⟨e, -, -, hev⟩ := slice_present (q := UInt64.ofNat (m + 1)) hslice' (by omega) (by omega)
    exact absurd hev.present (hlast _ (by omega))
  · rfl
  · have hq : (UInt64.ofNat m).toNat = m := UInt64.toNat_ofNat_of_lt' hm
    obtain ⟨e, -, -, hev⟩ := slice_present (q := UInt64.ofNat m) hslice (by omega) (by omega)
    exact absurd hev.present (hw.last _ (by omega))

/-- The log after the entries were written, if they all can be. -/
theorem StreamId.Ready.whole {envelopes : List Envelope} (hr : stream.Ready X K s entries) (he : stream.Entered K (orderedEntries entries) s t)
    (hall : List.Forall₂ (stream.EntryAt X K t) (orderedEntries entries) envelopes) : stream.Whole X K t entries.length := by
  obtain ⟨-, hrange⟩ := dense_seqs hr.dense
  obtain ⟨g, hg⟩ := hr.genesis
  have hzero : Agree (K.Own (stream.logKey 0)) s t := he.kept 0 (hg.present (q := 0))
  refine ⟨⟨g, ?_⟩, ?_, fun q hq hp => ?_, he.within.2 hr.within⟩
  · obtain ⟨seq, hseq, bytes, hb, hd⟩ := hg
    obtain rfl : seq = 0 := UInt64.toNat_inj.1 hseq
    exact ⟨0, rfl, bytes, (found_agree hzero).trans hb, hd⟩
  · rw [← length_orderedEntries]
    exact slice_of_entries hall hr.dense fun entry hmem => hr.verifies entry (mem_orderedEntries.1 hmem)
  · rcases he.mem_keys (AtomicKeyspace.mem_keys_iff_lookup.2 hp) with hin | ⟨entry, hmem, hkey⟩
    · exact hr.last q hq (AtomicKeyspace.mem_keys_iff_lookup.1 hin)
    · have := (hrange entry hmem).2
      rw [← StreamId.logKey_injective hkey, length_orderedEntries] at this
      omega

theorem ends_migrateLog (ho : ¬ B.omits) (ha : stream.Alone K s) (hmax : ¬ stream.Present K s maxSeq) (hsize : entries.length < 2 ^ 63)
    (hfuel : (K.keys s).length + entries.length + 2 < fuel) (hrounds : 65 < fuel) :
    (migrateLog X K fuel ids stream entries).run.Ends B.exec (stream.Migrated X K B entries s) s := by
  unfold migrateLog
  dsimp only
  cases hd : checkDense 0 (orderedEntries entries) with
  | error e =>
    refine ⟨.refl s, nofun, fun _ hr => ?_⟩
    rw [hr.dense] at hd
    cases hd
  | ok u =>
  obtain ⟨hapart, hrange⟩ := dense_seqs hd
  show (verifyMigrationGenesis X K stream >>= _ : StreamOp MigrationReceipt).run.Ends _ _ s
  refine Prog.ends_bindE.2 (ends_verifyMigrationGenesis.imp ?_)
  rintro (e | u) t ⟨rfl, hgenesis, hgood⟩
  · refine ⟨.refl t, nofun, fun hf hr => ?_⟩
    cases hgood hf hr.genesis
  obtain ⟨g, seq, hseq, bytes, hb, hg⟩ := hgenesis rfl
  obtain rfl : seq = 0 := UInt64.toNat_inj.1 hseq
  have hk : K.objectKey (stream.logKey 0) = .ok (K.root ++ stream.logKey 0) := Keyspace.objectKey_of_seen hb
  refine Prog.ends_bindE.2 ((ends_migrateEntries hapart).imp ?_)
  rintro (e | envelopes) u htried
  · refine ⟨htried.entered.grown (AtomicKeyspace.Beside.refl u), nofun, fun hf hr => ?_⟩
    obtain ⟨envelopes, h⟩ := htried.succeeds hf fun entry he => hr.takes entry (mem_orderedEntries.1 he)
    cases h
  have hall := htried.landed envelopes rfl
  have hzero : Agree (K.Own (stream.logKey 0)) t u := htried.entered.kept 0 (present_of_found hb)
  have halone : stream.Alone K u := ha.grown hk fun key hkey => by
    rcases htried.entered.mem_keys hkey with hin | ⟨entry, -, rfl⟩
    · exact .inl hin
    · exact .inr (.inr ⟨_, rfl⟩)
  have hmax' : ¬ stream.Present K u maxSeq := by
    intro hp
    rcases htried.entered.mem_keys (AtomicKeyspace.mem_keys_iff_lookup.2 hp) with hin | ⟨entry, hmem, hkey⟩
    · exact hmax (AtomicKeyspace.mem_keys_iff_lookup.1 hin)
    · have hle := (hrange entry hmem).2
      rw [← StreamId.logKey_injective hkey, length_orderedEntries] at hle
      have hval : maxSeq.toNat = 18446744073709551615 := by decide
      omega
  have hkeys := htried.entered.length_keys
  rw [length_orderedEntries] at hkeys
  have hnil : stream.Slice X K u 1 [] := trivial
  have hback : (readBackLoop X K fuel ids stream fuel 0).run.Ends B.exec (stream.ReadBack X K B u) u :=
    ends_readBackLoop ho halone hk hmax' (by omega) hrounds (AtomicKeyspace.Beside.refl u) hnil rfl (by omega) (.inl rfl)
  refine Prog.ends_bindE.2 (hback.imp ?_)
  rintro (e | last) v hread
  · refine ⟨htried.entered.grown hread.hinted, nofun, fun hf hr => ?_⟩
    obtain ⟨last, h⟩ := hread.succeeds hf _ (hr.whole htried.entered hall)
    cases h
  obtain ⟨⟨events, hslice, hcount⟩, hlast, hwithin⟩ := hread.read last rfl
  have hexpected : (UInt64.ofNat (orderedEntries entries).length).toNat = entries.length := by
    rw [length_orderedEntries]
    exact UInt64.toNat_ofNat_of_lt' (show entries.length < 2 ^ 64 by omega)
  dsimp only [Prog.OnOk]
  split
  · next hne =>
    refine ⟨htried.entered.grown hread.hinted, nofun, fun hf hr => ?_⟩
    have := (hr.whole htried.entered hall).unique hslice hcount last.toNat_lt hlast
    exact absurd (UInt64.toNat_inj.1 (this.trans hexpected.symm)) hne
  next heq =>
  have hwhole : stream.Whole X K u entries.length := by
    have hn : last.toNat = entries.length := by rw [not_not.1 heq, hexpected]
    rw [hn] at hcount hlast
    exact ⟨⟨g, 0, rfl, bytes, (found_agree hzero).trans hb, hg⟩, ⟨events, hslice, hcount⟩, hlast, hwithin⟩
  have hreceipt : (⟨UInt64.ofNat (orderedEntries entries).length, hexEncode (X.sha256 (envelopes.flatMap fun envelope => X.sha256 envelope.encoded))⟩ :
      MigrationReceipt) = migrationReceipt X envelopes := by
    rw [migrationReceipt, hall.length_eq]
  have hdone : ∀ w, stream.Hinted K v w → stream.Migrated X K B entries t (.ok ⟨UInt64.ofNat (orderedEntries entries).length,
      hexEncode (X.sha256 (envelopes.flatMap fun envelope => X.sha256 envelope.encoded))⟩) w := by
    intro w hw
    have huw : stream.Hinted K u w := hread.hinted.trans hw
    refine ⟨htried.entered.grown huw, fun _ => ?_, fun _ _ => ⟨_, rfl⟩⟩
    rintro ⟨⟩
    exact ⟨hd, hwhole.hinted huw, envelopes, hall.imp fun _ _ h => h.hinted huw, hreceipt⟩
  have hkeys' := hread.hinted.length_keys
  cases envelopes.getLast? with
  | none => exact hdone v (AtomicKeyspace.Beside.refl v)
  | some terminal =>
    refine Prog.ends_lift_bind.2 ((settles_advanceTailHint (s := v) (by omega) _ _ v (AtomicKeyspace.Beside.refl v)).imp ?_)
    exact fun _ w hw => hdone w hw

end

end YeetzS3.Streams
