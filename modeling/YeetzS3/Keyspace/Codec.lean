import YeetzS3.Sha256
import YeetzS3.Keyspace.Streamed

/-!
# The control format is canonical

A control's bytes say which of the two formats they are in and what they hold: the decoder accepts exactly
the encodings of inline envelopes and of canonical manifests, and no bytes are both. `Canonical` is what
the decoder checks of a manifest; the manifests the writers build satisfy it, whatever the store answers
while they upload their chunks. `decodeChecked` is the decoder with every slice checked against the length
of its input and every addition against the width of its integers, as a debug build runs it.
-/

namespace YeetzS3.Keyspace

open Conc

/-! ### Slices -/

theorem slice_append {a b c : Bytes} {i n : ℕ} (ha : a.length = i) (hb : b.length = n) : slice (a ++ b ++ c) i n = b := by
  rw [slice, List.append_assoc, List.drop_left' ha, List.take_left' hb]

theorem slice_length {bs : Bytes} {i n : ℕ} (h : i + n ≤ bs.length) : (slice bs i n).length = n := by
  simp [slice]
  omega

theorem take_append_slice (bs : Bytes) (i n : ℕ) : bs.take i ++ slice bs i n = bs.take (i + n) := by
  rw [slice, ← List.take_add]

theorem beBytes_slice {bs : Bytes} {i n v : ℕ} (h : i + n ≤ bs.length) (hv : ofBeBytes (slice bs i n) = v) :
    beBytes n v = slice bs i n := by
  have hb := beBytes_ofBeBytes (slice bs i n)
  rwa [slice_length h, hv] at hb

theorem u64Bytes_slice {bs : Bytes} {i : ℕ} (h : i + 8 ≤ bs.length) : u64Bytes (beU64 (slice bs i 8)) = slice bs i 8 := by
  apply u64Bytes_of_u64OfBytes
  rw [u64OfBytes, if_pos (slice_length h)]
  rfl

theorem ofBeBytes_beBytes_of_lt {w n : ℕ} (h : n < 256 ^ w) : ofBeBytes (beBytes w n) = n := by
  rw [ofBeBytes_beBytes, Nat.mod_eq_of_lt h]

/-- What starts with `p` has `p` as its first bytes. -/
theorem take_of_isPrefixOf {p bs : Bytes} (h : p.isPrefixOf bs = true) : bs.take p.length = p := by
  obtain ⟨rest, rfl⟩ := List.isPrefixOf_iff_prefix.1 h
  exact List.take_left' rfl

theorem isPrefixOf_append (p rest : Bytes) : p.isPrefixOf (p ++ rest) = true :=
  List.isPrefixOf_iff_prefix.2 ⟨rest, rfl⟩

/-! ### The inline envelope -/

theorem ValueEnvelope.encode_length (e : ValueEnvelope) : e.encode.length = 40 + e.payload.length := by
  have hp : valueEnvelopePrefix.length = 24 := by decide
  simp only [encode, List.length_append, u64Bytes_length, hp]

theorem ValueEnvelope.decode_encode (key : Str) (e : ValueEnvelope) : decode key e.encode = .ok e := by
  have hp : valueEnvelopePrefix.length = 24 := by decide
  have hpre : valueEnvelopePrefix.isPrefixOf e.encode = true := by
    simp only [encode, List.append_assoc]
    exact isPrefixOf_append ..
  have hdrop : e.encode.drop 40 = e.payload := by
    rw [encode]
    exact List.drop_left' (by simp [hp])
  have hstamp := stampOf_envelope e
  simp only [stampOf, Stamp.mk.injEq] at hstamp
  have hlen := e.encode_length
  rw [decode, if_neg (by rw [hpre]; simp; omega), hstamp.1, hstamp.2, hdrop]

theorem ValueEnvelope.encode_of_decode {key : Str} {bs : Bytes} {e : ValueEnvelope} (h : decode key bs = .ok e) :
    bs = e.encode := by
  unfold decode at h
  split at h
  · cases h
  next hc =>
  cases h
  simp only [not_or, not_lt, not_not] at hc
  obtain ⟨hlen, hpre⟩ := hc
  have hp : valueEnvelopePrefix = bs.take 24 := (take_of_isPrefixOf hpre).symm
  rw [encode, u64Bytes_slice (by omega), u64Bytes_slice (by omega), hp, take_append_slice, take_append_slice,
    List.take_append_drop]

/-! ### The chunk table -/

/-- Every chunk but the last is full, and the last is not empty. -/
def CanonicalTable : List ManifestEntry → Prop
  | [] => True
  | [e] => 1 ≤ e.encodedLen ∧ e.encodedLen ≤ chunkBytes
  | e :: rest => e.encodedLen = chunkBytes ∧ CanonicalTable rest

/-- The length of an entry of a canonical table. -/
def EntryLen : Bool → ℕ → Prop
  | true, n => 1 ≤ n ∧ n ≤ chunkBytes
  | false, n => n = chunkBytes

instance : ∀ final n, Decidable (EntryLen final n)
  | true, n => inferInstanceAs (Decidable (1 ≤ n ∧ n ≤ chunkBytes))
  | false, n => inferInstanceAs (Decidable (n = chunkBytes))

theorem canonicalTable_cons {e : ManifestEntry} {rest : List ManifestEntry} :
    CanonicalTable (e :: rest) ↔ EntryLen rest.isEmpty e.encodedLen ∧ CanonicalTable rest := by
  cases rest with
  | nil => simp [CanonicalTable, EntryLen]
  | cons f rest => simp [CanonicalTable, EntryLen]

theorem EntryLen.le {final : Bool} {n : ℕ} (h : EntryLen final n) : n ≤ chunkBytes := by
  cases final with
  | false => exact Nat.le_of_eq h
  | true => exact h.2

theorem EntryLen.lt {final : Bool} {n : ℕ} (h : EntryLen final n) : n < 256 ^ 4 := h.le.trans_lt (by decide)

theorem tableBytes_cons (e : ManifestEntry) (rest : List ManifestEntry) :
    tableBytes (e :: rest) = beBytes 4 e.encodedLen ++ e.sha256 ++ tableBytes rest := rfl

theorem tableBytes_length {entries : List ManifestEntry} (h : ∀ e ∈ entries, e.sha256.length = 32) :
    (tableBytes entries).length = manifestEntryBytes * entries.length := by
  induction entries with
  | nil => rfl
  | cons e rest ih =>
    have he := h e (List.mem_cons_self ..)
    have hrest := ih fun f hf => h f (List.mem_cons_of_mem _ hf)
    rw [tableBytes_cons, List.length_append, List.length_append, beBytes_length, he, hrest, List.length_cons]
    simp [manifestEntryBytes]
    omega

/-- One entry of a table. -/
theorem decodeEntries_eq (encoded : Bytes) (n left i : ℕ) : decodeEntries encoded n (left + 1) i =
    if EntryLen (decide (i = n - 1)) (ofBeBytes (slice encoded (manifestHeaderBytes + i * manifestEntryBytes) 4)) then
      (decodeEntries encoded n left (i + 1)).map
        (⟨ofBeBytes (slice encoded (manifestHeaderBytes + i * manifestEntryBytes) 4),
          slice encoded (manifestHeaderBytes + i * manifestEntryBytes + 4) 32⟩ :: ·)
    else none := by
  rw [decodeEntries]
  by_cases hi : i = n - 1
  · simp only [if_pos hi, guard, EntryLen, decide_eq_true hi, Option.bind_eq_bind]
    split
    · cases decodeEntries encoded n left (i + 1) <;> rfl
    · rfl
  · simp only [if_neg hi, guard, EntryLen, decide_eq_false hi, Option.bind_eq_bind]
    split
    · cases decodeEntries encoded n left (i + 1) <;> rfl
    · rfl

theorem decodeEntries_succ {encoded : Bytes} {n left i : ℕ} {rest : List ManifestEntry} :
    decodeEntries encoded n (left + 1) i = some rest ↔
      EntryLen (decide (i = n - 1)) (ofBeBytes (slice encoded (manifestHeaderBytes + i * manifestEntryBytes) 4)) ∧
      ∃ tail, decodeEntries encoded n left (i + 1) = some tail ∧
        ⟨ofBeBytes (slice encoded (manifestHeaderBytes + i * manifestEntryBytes) 4),
          slice encoded (manifestHeaderBytes + i * manifestEntryBytes + 4) 32⟩ :: tail = rest := by
  rw [decodeEntries_eq]
  split
  · next h => simp [h, Option.map_eq_some_iff]
  · next h => simp [h]

/-- Entry `i` of `n` is the last one exactly if none are left. -/
theorem decide_last {i left n : ℕ} {tail : List ManifestEntry} (hn : i + (left + 1) = n) (hl : tail.length = left) :
    decide (i = n - 1) = tail.isEmpty := by
  cases tail with
  | nil =>
    rw [List.length_nil] at hl
    simp
    omega
  | cons f tail =>
    rw [List.length_cons] at hl
    simp
    omega

/-- A canonical table reads back. -/
theorem decodeEntries_tableBytes {rest : List ManifestEntry} {hdr : Bytes} {n i : ℕ} (hc : CanonicalTable rest)
    (hd : ∀ e ∈ rest, e.sha256.length = 32) (hh : hdr.length = manifestHeaderBytes + i * manifestEntryBytes)
    (hn : i + rest.length = n) : decodeEntries (hdr ++ tableBytes rest) n rest.length i = some rest := by
  induction rest generalizing hdr i with
  | nil => rfl
  | cons e rest ih =>
    obtain ⟨hl, hc⟩ := canonicalTable_cons.1 hc
    have he := hd e (List.mem_cons_self ..)
    have hlen : slice (hdr ++ tableBytes (e :: rest)) (manifestHeaderBytes + i * manifestEntryBytes) 4 =
        beBytes 4 e.encodedLen := by
      rw [tableBytes_cons, ← List.append_assoc, ← List.append_assoc, List.append_assoc (hdr ++ _)]
      exact slice_append hh (beBytes_length ..)
    have hsha : slice (hdr ++ tableBytes (e :: rest)) (manifestHeaderBytes + i * manifestEntryBytes + 4) 32 = e.sha256 := by
      rw [tableBytes_cons, ← List.append_assoc, ← List.append_assoc]
      exact slice_append (by rw [List.length_append, hh, beBytes_length]) he
    have hrest : decodeEntries (hdr ++ tableBytes (e :: rest)) n rest.length (i + 1) = some rest := by
      have := @ih (hdr ++ (beBytes 4 e.encodedLen ++ e.sha256)) (i + 1) hc
        (fun f hf => hd f (List.mem_cons_of_mem _ hf))
        (by simp only [List.length_append, hh, beBytes_length, he, manifestEntryBytes]; omega)
        (by rw [List.length_cons] at hn; omega)
      rwa [List.append_assoc, ← tableBytes_cons] at this
    rw [List.length_cons, decodeEntries_succ, hlen, hsha, ofBeBytes_beBytes_of_lt hl.lt, decide_last hn rfl]
    exact ⟨hl, rest, hrest, rfl⟩

/-- What reads as a table is canonical, and the table's bytes are where it was read. -/
theorem tableBytes_of_decodeEntries {encoded : Bytes} {n left i : ℕ} {rest : List ManifestEntry}
    (h : decodeEntries encoded n left i = some rest) (hn : i + left = n)
    (hlen : manifestHeaderBytes + (i + left) * manifestEntryBytes ≤ encoded.length) :
    rest.length = left ∧ CanonicalTable rest ∧ (∀ e ∈ rest, e.sha256.length = 32) ∧
      encoded.take (manifestHeaderBytes + i * manifestEntryBytes) ++ tableBytes rest =
        encoded.take (manifestHeaderBytes + (i + left) * manifestEntryBytes) := by
  have hE : manifestEntryBytes = 36 := rfl
  have hH : manifestHeaderBytes = 108 := rfl
  induction left generalizing i rest with
  | zero =>
    cases h
    simp [CanonicalTable, tableBytes]
  | succ left ih =>
    obtain ⟨he, tail, ht, rfl⟩ := decodeEntries_succ.1 h
    obtain ⟨hl, hc, hd, hb⟩ := ih ht (by omega) (by rw [hE, hH] at hlen ⊢; omega)
    have hsha : (slice encoded (manifestHeaderBytes + i * manifestEntryBytes + 4) 32).length = 32 :=
      slice_length (by rw [hE, hH] at hlen ⊢; omega)
    rw [decide_last hn hl] at he
    refine ⟨by rw [List.length_cons, hl], canonicalTable_cons.2 ⟨he, hc⟩, ?_, ?_⟩
    · intro e he
      rcases List.mem_cons.1 he with rfl | he
      · exact hsha
      · exact hd e he
    · have hnext : manifestHeaderBytes + i * manifestEntryBytes + 4 + 32 =
          manifestHeaderBytes + (i + 1) * manifestEntryBytes := by
        rw [hE]
        omega
      have hleft : i + 1 + left = i + (left + 1) := by omega
      rw [tableBytes_cons, beBytes_slice (by rw [hE, hH] at hlen ⊢; omega) rfl, ← List.append_assoc, ← List.append_assoc,
        take_append_slice, take_append_slice, hnext, hb, hleft]

/-! ### The manifest -/

/-- The canonical manifests: the widths are those of its fields' types, the rest is what the decoder checks. -/
structure ValueManifest.Canonical (O : Outside) (m : ValueManifest) : Prop where
  commitId : m.commitId.length = 16
  digests : ∀ e ∈ m.entries, e.sha256.length = 32
  rootLength : m.valueRootSha256.length = 32
  chunkBytes : m.chunkBytes = Keyspace.chunkBytes
  atLeast : minChunks ≤ m.entries.length
  atMost : m.entries.length ≤ maxChunks
  table : CanonicalTable m.entries
  sum : (m.entries.map (·.encodedLen)).sum = m.logicalLen
  root : m.valueRootSha256 = computeValueRoot O m.logicalLen Keyspace.chunkBytes m.entries

theorem CanonicalTable.sum_le {entries : List ManifestEntry} (h : CanonicalTable entries) :
    (entries.map (·.encodedLen)).sum ≤ Keyspace.chunkBytes * entries.length := by
  induction entries with
  | nil => simp
  | cons e rest ih =>
    obtain ⟨hl, hc⟩ := canonicalTable_cons.1 h
    have he := hl.le
    have hrest := ih hc
    rw [List.map_cons, List.sum_cons, List.length_cons, Nat.mul_add, Nat.mul_one]
    omega

/-- A canonical manifest's value is at most 1 TiB long. -/
theorem ValueManifest.Canonical.logicalLen_le {O : Outside} {m : ValueManifest} (h : m.Canonical O) :
    m.logicalLen ≤ maxLogicalBytes := by
  rw [← h.sum]
  exact h.table.sum_le.trans (Nat.mul_le_mul_left _ h.atMost)

/-- What the manifest decoder accepts. -/
theorem ValueManifest.decode_ok {O : Outside} {key : Str} {encoded : Bytes} {m : ValueManifest} :
    decode O key encoded = .ok m ↔
      encoded.length ≤ maxManifestBytes ∧ manifestHeaderBytes ≤ encoded.length ∧
      manifestMagic.isPrefixOf encoded = true ∧ ofBeBytes (slice encoded 40 4) = 1 ∧
      ofBeBytes (slice encoded 100 4) = Keyspace.chunkBytes ∧
      minChunks ≤ ofBeBytes (slice encoded 104 4) ∧ ofBeBytes (slice encoded 104 4) ≤ maxChunks ∧
      encoded.length = manifestHeaderBytes + manifestEntryBytes * ofBeBytes (slice encoded 104 4) ∧
      ∃ entries, decodeEntries encoded (ofBeBytes (slice encoded 104 4)) (ofBeBytes (slice encoded 104 4)) 0 = some entries ∧
        (entries.map (·.encodedLen)).sum = ofBeBytes (slice encoded 60 8) ∧
        ofBeBytes (slice encoded 60 8) ≤ maxLogicalBytes ∧
        computeValueRoot O (ofBeBytes (slice encoded 60 8)) Keyspace.chunkBytes entries = slice encoded 68 32 ∧
        m = ⟨beU64 (slice encoded 24 8), beU64 (slice encoded 32 8), slice encoded 44 16, ofBeBytes (slice encoded 60 8),
          slice encoded 68 32, Keyspace.chunkBytes, entries⟩ := by
  unfold decode
  simp only [bind, Except.bind, pure, Except.pure, throw, throwThe, MonadExceptOf.throw]
  constructor
  · intro h
    repeat' split at h
    all_goals cases h
    all_goals grind
  · rintro ⟨h₁, h₂, h₃, h₄, h₅, h₆, h₇, h₈, entries, h₉, h₁₀, h₁₁, h₁₂, rfl⟩
    simp [not_lt.2 h₁, not_lt.2 h₂, h₃, h₄, h₅, h₆, h₇, eq_true h₈, h₉, h₁₀, not_lt.2 h₁₁, h₁₂]

/-- The fixed part of a manifest. -/
def ValueManifest.header (m : ValueManifest) : Bytes :=
  manifestMagic ++ u64Bytes m.incarnation ++ u64Bytes m.version ++ beBytes 4 1 ++ m.commitId ++
    beBytes 8 m.logicalLen ++ m.valueRootSha256 ++ beBytes 4 m.chunkBytes ++ beBytes 4 m.entries.length

theorem ValueManifest.encode_eq (m : ValueManifest) : m.encode = m.header ++ tableBytes m.entries := rfl

theorem manifestMagic_length : manifestMagic.length = 24 := by decide

section
variable {O : Outside} {m : ValueManifest}

theorem ValueManifest.Canonical.header_length (h : m.Canonical O) : m.header.length = manifestHeaderBytes := by
  simp only [header, List.length_append, manifestMagic_length, u64Bytes_length, beBytes_length, h.commitId, h.rootLength]
  rfl

theorem ValueManifest.Canonical.encode_length (h : m.Canonical O) :
    m.encode.length = manifestHeaderBytes + manifestEntryBytes * m.entries.length := by
  rw [encode_eq, List.length_append, h.header_length, tableBytes_length h.digests]

theorem isPrefixOf_encode (m : ValueManifest) : manifestMagic.isPrefixOf m.encode = true := by
  simp only [ValueManifest.encode, List.append_assoc]
  exact isPrefixOf_append ..

/-- A slice of the header lies between what is before and after it. -/
theorem slice_encode {a b c : Bytes} {i n : ℕ} (hm : m.encode = a ++ b ++ c) (ha : a.length = i) (hb : b.length = n) :
    slice m.encode i n = b := by
  rw [hm]
  exact slice_append ha hb

/-- Every canonical manifest reads back. -/
theorem ValueManifest.decode_encode (h : m.Canonical O) (key : Str) : decode O key m.encode = .ok m := by
  have hm := manifestMagic_length
  have hmax : maxManifestBytes = 4194304 := rfl
  have hmaxc : maxChunks = 65536 := rfl
  have hH : manifestHeaderBytes = 108 := rfl
  have hE : manifestEntryBytes = 36 := rfl
  have hlen := h.encode_length
  have hcount := h.atMost
  -- what stands where
  have hstamp := stampOf_manifest m
  simp only [stampOf, Stamp.mk.injEq] at hstamp
  have hkind : slice m.encode 40 4 = beBytes 4 1 := by
    refine slice_encode (a := manifestMagic ++ u64Bytes m.incarnation ++ u64Bytes m.version)
      (c := m.commitId ++ beBytes 8 m.logicalLen ++ m.valueRootSha256 ++ beBytes 4 m.chunkBytes ++
        beBytes 4 m.entries.length ++ tableBytes m.entries) ?_ ?_ (beBytes_length ..)
    · simp only [encode, List.append_assoc]
    · simp [hm]
  have hcommit : slice m.encode 44 16 = m.commitId := by
    refine slice_encode (a := manifestMagic ++ u64Bytes m.incarnation ++ u64Bytes m.version ++ beBytes 4 1)
      (c := beBytes 8 m.logicalLen ++ m.valueRootSha256 ++ beBytes 4 m.chunkBytes ++
        beBytes 4 m.entries.length ++ tableBytes m.entries) ?_ ?_ h.commitId
    · simp only [encode, List.append_assoc]
    · simp [hm, beBytes_length]
  have hlogical : slice m.encode 60 8 = beBytes 8 m.logicalLen := by
    refine slice_encode (a := manifestMagic ++ u64Bytes m.incarnation ++ u64Bytes m.version ++ beBytes 4 1 ++ m.commitId)
      (c := m.valueRootSha256 ++ beBytes 4 m.chunkBytes ++ beBytes 4 m.entries.length ++ tableBytes m.entries) ?_ ?_
      (beBytes_length ..)
    · simp only [encode, List.append_assoc]
    · simp [hm, beBytes_length, h.commitId]
  have hroot : slice m.encode 68 32 = m.valueRootSha256 := by
    refine slice_encode (a := manifestMagic ++ u64Bytes m.incarnation ++ u64Bytes m.version ++ beBytes 4 1 ++
        m.commitId ++ beBytes 8 m.logicalLen)
      (c := beBytes 4 m.chunkBytes ++ beBytes 4 m.entries.length ++ tableBytes m.entries) ?_ ?_ h.rootLength
    · simp only [encode, List.append_assoc]
    · simp [hm, beBytes_length, h.commitId]
  have hchunk : slice m.encode 100 4 = beBytes 4 m.chunkBytes := by
    refine slice_encode (a := manifestMagic ++ u64Bytes m.incarnation ++ u64Bytes m.version ++ beBytes 4 1 ++
        m.commitId ++ beBytes 8 m.logicalLen ++ m.valueRootSha256)
      (c := beBytes 4 m.entries.length ++ tableBytes m.entries) ?_ ?_ (beBytes_length ..)
    · simp only [encode, List.append_assoc]
    · simp [hm, beBytes_length, h.commitId, h.rootLength]
  have hentries : slice m.encode 104 4 = beBytes 4 m.entries.length := by
    refine slice_encode (a := manifestMagic ++ u64Bytes m.incarnation ++ u64Bytes m.version ++ beBytes 4 1 ++
        m.commitId ++ beBytes 8 m.logicalLen ++ m.valueRootSha256 ++ beBytes 4 m.chunkBytes)
      (c := tableBytes m.entries) ?_ ?_ (beBytes_length ..)
    · simp only [encode, List.append_assoc]
    · simp [hm, beBytes_length, h.commitId, h.rootLength]
  -- the numbers fit their widths
  have hlogical' : ofBeBytes (beBytes 8 m.logicalLen) = m.logicalLen :=
    ofBeBytes_beBytes_of_lt (h.logicalLen_le.trans_lt (by decide))
  have hcount' : ofBeBytes (beBytes 4 m.entries.length) = m.entries.length :=
    ofBeBytes_beBytes_of_lt (hcount.trans_lt (by decide))
  have htable : decodeEntries m.encode m.entries.length m.entries.length 0 = some m.entries := by
    rw [encode_eq]
    exact decodeEntries_tableBytes h.table h.digests (by rw [h.header_length, Nat.zero_mul, Nat.add_zero]) (Nat.zero_add _)
  have hshort : m.encode.length ≤ maxManifestBytes := by
    rw [hlen, hE]
    omega
  refine decode_ok.2 ?_
  rw [hkind, hcommit, hlogical, hroot, hchunk, hentries, hlogical', hcount', hstamp.1, hstamp.2]
  refine ⟨hshort, by omega, isPrefixOf_encode m, ofBeBytes_beBytes_of_lt (by decide), ?_, h.atLeast, hcount, hlen,
    m.entries, htable, h.sum, h.logicalLen_le, h.root.symm, ?_⟩
  · rw [h.chunkBytes]
    exact ofBeBytes_beBytes_of_lt (by decide)
  · rw [← h.chunkBytes]

/-- What the decoder accepts is the encoding of the canonical manifest it returns. -/
theorem ValueManifest.encode_of_decode {key : Str} {bs : Bytes} (h : decode O key bs = .ok m) :
    m.Canonical O ∧ bs = m.encode := by
  have hH : manifestHeaderBytes = 108 := rfl
  obtain ⟨-, hlen, hpre, hkind, hchunk, hmin, hmax, hcount, entries, ht, hsum, -, hroot, rfl⟩ := decode_ok.1 h
  obtain ⟨hl, hc, hd, hb⟩ := tableBytes_of_decodeEntries ht (Nat.zero_add _) (by rw [Nat.zero_add, hcount, Nat.mul_comm])
  refine ⟨⟨slice_length (by omega), hd, slice_length (by omega), rfl, ?_, ?_, hc, hsum, hroot.symm⟩, ?_⟩
  · rwa [hl]
  · rwa [hl]
  · have hmagic : manifestMagic = bs.take 24 := (take_of_isPrefixOf hpre).symm
    have hwhole : manifestHeaderBytes + (0 + ofBeBytes (slice bs 104 4)) * manifestEntryBytes = bs.length := by
      rw [hcount, Nat.zero_add, Nat.mul_comm]
    rw [hwhole, List.take_length, hH] at hb
    rw [encode, hmagic, u64Bytes_slice (by omega), u64Bytes_slice (by omega), beBytes_slice (by omega) hkind,
      beBytes_slice (by omega) rfl, beBytes_slice (by omega) hchunk, beBytes_slice (by omega) hl.symm]
    simp only [take_append_slice]
    exact hb.symm

end

/-! ### Either format -/

theorem not_isPrefixOf_envelope (e : ValueEnvelope) : manifestMagic.isPrefixOf e.encode = false := by
  rw [Bool.eq_false_iff]
  intro h
  have htake := take_of_isPrefixOf h
  rw [ValueEnvelope.encode, List.append_assoc, List.append_assoc, manifestMagic_length,
    List.take_left' (by decide)] at htake
  exact absurd htake (by decide)

/-- The decoder answers with an inline envelope exactly on its encoding. -/
theorem ControlEnvelope.decode_inline {O : Outside} {key : Str} {bs : Bytes} {e : ValueEnvelope} :
    decode O key bs = .ok (.inline e) ↔ bs = e.encode := by
  constructor
  · intro h
    unfold decode at h
    split at h
    · cases hm : ValueManifest.decode O key bs <;> rw [hm] at h <;> cases h
    · cases he : ValueEnvelope.decode key bs with
      | error _ => rw [he] at h; cases h
      | ok e' =>
        rw [he] at h
        cases h
        exact ValueEnvelope.encode_of_decode he
  · rintro rfl
    rw [decode, not_isPrefixOf_envelope, if_neg Bool.false_ne_true, ValueEnvelope.decode_encode]
    rfl

/-- The decoder answers with a manifest exactly on the encoding of a canonical one. -/
theorem ControlEnvelope.decode_chunked {O : Outside} {key : Str} {bs : Bytes} {m : ValueManifest} :
    decode O key bs = .ok (.chunked m) ↔ m.Canonical O ∧ bs = m.encode := by
  constructor
  · intro h
    unfold decode at h
    split at h
    · cases hm : ValueManifest.decode O key bs with
      | error _ => rw [hm] at h; cases h
      | ok m' =>
        rw [hm] at h
        cases h
        exact ValueManifest.encode_of_decode hm
    · cases he : ValueEnvelope.decode key bs <;> rw [he] at h <;> cases h
  · rintro ⟨hc, rfl⟩
    rw [decode, isPrefixOf_encode, if_pos rfl, ValueManifest.decode_encode hc]
    rfl

/-! ### In checked arithmetic -/

/-- `&bs[start..start + n]`, which panics past the end. -/
def sliceChecked (bs : Bytes) (start n : ℕ) : Option Bytes :=
  if start + n ≤ bs.length then some (slice bs start n) else none

/-- A number that must fit 64 bits. -/
def fitsU64 (n : ℕ) : Option ℕ := if n < 2 ^ 64 then some n else none

/-- `ValueEnvelope::decode`, where a slice out of bounds is `none`. -/
def ValueEnvelope.decodeChecked (key : Str) (encoded : Bytes) : Option (Except KeyspaceError ValueEnvelope) :=
  if encoded.length < 40 ∨ ¬ valueEnvelopePrefix.isPrefixOf encoded then
    some (.error (.valueEnvelopeMalformed key))
  else do
    let incarnation ← sliceChecked encoded 24 8
    let version ← sliceChecked encoded 32 8
    let payload ← sliceChecked encoded 40 (encoded.length - 40)
    some (.ok ⟨beU64 incarnation, beU64 version, payload⟩)

/-- The loop over the entry table: `none` is a panic, `some none` a malformed entry. -/
def decodeEntriesChecked (encoded : Bytes) (n : ℕ) : ℕ → ℕ → ℕ → Option (Option (List ManifestEntry × ℕ))
  | 0, _, summed => some (some ([], summed))
  | left + 1, i, summed => do
    let offset ← fitsU64 (i * manifestEntryBytes)
    let start ← fitsU64 (manifestHeaderBytes + offset)
    let len ← sliceChecked encoded start 4
    let sha ← sliceChecked encoded (start + 4) 32
    if EntryLen (decide (i = n - 1)) (ofBeBytes len) then
      let summed ← fitsU64 (summed + ofBeBytes len)
      let rest ← decodeEntriesChecked encoded n left (i + 1) summed
      some (rest.map fun r => (⟨ofBeBytes len, sha⟩ :: r.1, r.2))
    else some none

/-- `ValueManifest::decode` once the fixed fields are read. -/
def ValueManifest.checkFields (O : Outside) (key : Str) (encoded incarnation version kind commitId logicalLen root chunk
    count : Bytes) : Option (Except KeyspaceError ValueManifest) :=
  if ofBeBytes kind ≠ 1 then some (.error (.manifestMalformed key))
  else if ofBeBytes chunk ≠ Keyspace.chunkBytes then some (.error (.manifestMalformed key))
  else if ¬ (minChunks ≤ ofBeBytes count ∧ ofBeBytes count ≤ maxChunks) then
    some (.error (.chunkCountInvalid key (ofBeBytes count)))
  else do
    let table ← fitsU64 (manifestEntryBytes * ofBeBytes count)
    let expected ← fitsU64 (manifestHeaderBytes + table)
    if encoded.length ≠ expected then some (.error (.manifestMalformed key))
    else do
      let read ← decodeEntriesChecked encoded (ofBeBytes count) (ofBeBytes count) 0 0
      match read with
      | none => some (.error (.manifestMalformed key))
      | some (entries, summed) =>
        if summed ≠ ofBeBytes logicalLen then some (.error (.manifestMalformed key))
        else if ofBeBytes logicalLen > maxLogicalBytes then
          some (.error (.valueTooLarge key (ofBeBytes logicalLen) maxLogicalBytes))
        else if computeValueRoot O (ofBeBytes logicalLen) Keyspace.chunkBytes entries ≠ root then
          some (.error (.manifestRootMismatch key))
        else some (.ok ⟨beU64 incarnation, beU64 version, commitId, ofBeBytes logicalLen, root, Keyspace.chunkBytes, entries⟩)

/-- `ValueManifest::decode`, where a slice out of bounds or an overflow is `none`. -/
def ValueManifest.decodeChecked (O : Outside) (key : Str) (encoded : Bytes) : Option (Except KeyspaceError ValueManifest) :=
  if encoded.length > maxManifestBytes then
    some (.error (.manifestTooLarge key encoded.length maxManifestBytes))
  else if encoded.length < manifestHeaderBytes ∨ ¬ manifestMagic.isPrefixOf encoded then
    some (.error (.manifestMalformed key))
  else do
    let incarnation ← sliceChecked encoded 24 8
    let version ← sliceChecked encoded 32 8
    let kind ← sliceChecked encoded 40 4
    let commitId ← sliceChecked encoded 44 16
    let logicalLen ← sliceChecked encoded 60 8
    let root ← sliceChecked encoded 68 32
    let chunk ← sliceChecked encoded 100 4
    let count ← sliceChecked encoded 104 4
    checkFields O key encoded incarnation version kind commitId logicalLen root chunk count

/-- `ControlEnvelope::decode`, where a slice out of bounds or an overflow is `none`. -/
def ControlEnvelope.decodeChecked (O : Outside) (key : Str) (encoded : Bytes) : Option (Except KeyspaceError ControlEnvelope) :=
  if manifestMagic.isPrefixOf encoded then (ValueManifest.decodeChecked O key encoded).map (·.map chunked)
  else (ValueEnvelope.decodeChecked key encoded).map (·.map inline)

theorem sliceChecked_eq {bs : Bytes} {i n : ℕ} (h : i + n ≤ bs.length) : sliceChecked bs i n = some (slice bs i n) :=
  if_pos h

theorem fitsU64_eq {n : ℕ} (h : n < 2 ^ 64) : fitsU64 n = some n := if_pos h

theorem ValueEnvelope.decodeChecked_eq (key : Str) (bs : Bytes) : decodeChecked key bs = some (decode key bs) := by
  unfold decodeChecked decode
  split
  · rfl
  next h =>
  simp only [not_or, not_lt] at h
  have hpayload : slice bs 40 (bs.length - 40) = bs.drop 40 := by
    rw [slice, ← List.length_drop, List.take_length]
  rw [sliceChecked_eq (by omega), sliceChecked_eq (by omega), sliceChecked_eq (by omega), hpayload]
  rfl

/-- The loop stays inside the table and its sum inside 64 bits. -/
theorem decodeEntriesChecked_eq {encoded : Bytes} {n left i summed : ℕ}
    (hlen : manifestHeaderBytes + (i + left) * manifestEntryBytes ≤ encoded.length) (hn : i + left ≤ maxChunks)
    (hs : summed + left * chunkBytes < 2 ^ 64) : decodeEntriesChecked encoded n left i summed =
      some ((decodeEntries encoded n left i).map fun es => (es, summed + (es.map (·.encodedLen)).sum)) := by
  have hE : manifestEntryBytes = 36 := rfl
  have hH : manifestHeaderBytes = 108 := rfl
  have hC : maxChunks = 65536 := rfl
  induction left generalizing i summed with
  | zero => rfl
  | succ left ih =>
    have hbig : (2 : ℕ) ^ 64 = 18446744073709551616 := rfl
    rw [hE, hH] at hlen
    have hchunk : chunkBytes ≤ (left + 1) * chunkBytes := Nat.le_mul_of_pos_left _ (Nat.succ_pos left)
    have hstart : manifestHeaderBytes + i * manifestEntryBytes + 4 + 32 ≤ encoded.length := by
      rw [hE, hH]
      omega
    rw [decodeEntriesChecked, decodeEntries_eq]
    simp only [fitsU64_eq (show i * manifestEntryBytes < 2 ^ 64 by rw [hE]; omega),
      fitsU64_eq (show manifestHeaderBytes + i * manifestEntryBytes < 2 ^ 64 by rw [hE, hH]; omega),
      sliceChecked_eq hstart, sliceChecked_eq (show manifestHeaderBytes + i * manifestEntryBytes + 4 ≤ encoded.length by omega),
      Option.bind_eq_bind, Option.bind_some]
    split
    · next hl =>
      have hle := hl.le
      rw [Nat.succ_mul] at hs
      rw [fitsU64_eq (by omega), Option.bind_some, ih (by rw [hE, hH]; omega) (by omega) (by omega)]
      cases decodeEntries encoded n left (i + 1) with
      | none => rfl
      | some tail => simp [Nat.add_assoc]
    · rfl

/-- The checks of the manifest decoder, in order. -/
theorem ValueManifest.decode_eq (O : Outside) (key : Str) (encoded : Bytes) : decode O key encoded =
    if encoded.length > maxManifestBytes then .error (.manifestTooLarge key encoded.length maxManifestBytes)
    else if encoded.length < manifestHeaderBytes ∨ ¬ manifestMagic.isPrefixOf encoded then .error (.manifestMalformed key)
    else if ofBeBytes (slice encoded 40 4) ≠ 1 then .error (.manifestMalformed key)
    else if ofBeBytes (slice encoded 100 4) ≠ Keyspace.chunkBytes then .error (.manifestMalformed key)
    else if ¬ (minChunks ≤ ofBeBytes (slice encoded 104 4) ∧ ofBeBytes (slice encoded 104 4) ≤ maxChunks) then
      .error (.chunkCountInvalid key (ofBeBytes (slice encoded 104 4)))
    else if encoded.length ≠ manifestHeaderBytes + manifestEntryBytes * ofBeBytes (slice encoded 104 4) then
      .error (.manifestMalformed key)
    else match decodeEntries encoded (ofBeBytes (slice encoded 104 4)) (ofBeBytes (slice encoded 104 4)) 0 with
      | none => .error (.manifestMalformed key)
      | some entries =>
        if (entries.map (·.encodedLen)).sum ≠ ofBeBytes (slice encoded 60 8) then .error (.manifestMalformed key)
        else if ofBeBytes (slice encoded 60 8) > maxLogicalBytes then
          .error (.valueTooLarge key (ofBeBytes (slice encoded 60 8)) maxLogicalBytes)
        else if computeValueRoot O (ofBeBytes (slice encoded 60 8)) Keyspace.chunkBytes entries ≠ slice encoded 68 32 then
          .error (.manifestRootMismatch key)
        else .ok ⟨beU64 (slice encoded 24 8), beU64 (slice encoded 32 8), slice encoded 44 16,
          ofBeBytes (slice encoded 60 8), slice encoded 68 32, Keyspace.chunkBytes, entries⟩ := by
  unfold decode
  rfl

theorem ValueManifest.decodeChecked_eq (O : Outside) (key : Str) (bs : Bytes) :
    decodeChecked O key bs = some (decode O key bs) := by
  have hH : manifestHeaderBytes = 108 := rfl
  have hE : manifestEntryBytes = 36 := rfl
  have hC : maxChunks = 65536 := rfl
  have hbig : (2 : ℕ) ^ 64 = 18446744073709551616 := rfl
  rw [decode_eq]
  unfold decodeChecked
  split
  · rfl
  split
  · rfl
  next hpre =>
  simp only [not_or, not_lt] at hpre
  rw [hH] at hpre
  rw [sliceChecked_eq (show 24 + 8 ≤ bs.length by omega), sliceChecked_eq (show 32 + 8 ≤ bs.length by omega),
    sliceChecked_eq (show 40 + 4 ≤ bs.length by omega), sliceChecked_eq (show 44 + 16 ≤ bs.length by omega),
    sliceChecked_eq (show 60 + 8 ≤ bs.length by omega), sliceChecked_eq (show 68 + 32 ≤ bs.length by omega),
    sliceChecked_eq (show 100 + 4 ≤ bs.length by omega), sliceChecked_eq (show 104 + 4 ≤ bs.length by omega)]
  show checkFields O key bs (slice bs 24 8) (slice bs 32 8) (slice bs 40 4) (slice bs 44 16) (slice bs 60 8)
    (slice bs 68 32) (slice bs 100 4) (slice bs 104 4) = _
  unfold checkFields
  split
  · rfl
  split
  · rfl
  split
  · rfl
  next hcount =>
  rw [not_not, hC] at hcount
  rw [fitsU64_eq (by rw [hE]; omega), Option.bind_eq_bind, Option.bind_some, fitsU64_eq (by rw [hH, hE]; omega),
    Option.bind_eq_bind, Option.bind_some]
  split
  · rfl
  next hlen =>
  rw [not_not] at hlen
  have hentries := @decodeEntriesChecked_eq bs (ofBeBytes (slice bs 104 4)) (ofBeBytes (slice bs 104 4)) 0 0
    (by rw [hlen, Nat.zero_add, Nat.mul_comm]) (by omega)
    (by have hb : Keyspace.chunkBytes = 16777216 := rfl
        rw [hb]
        omega)
  rw [hentries, Option.bind_some]
  cases decodeEntries bs (ofBeBytes (slice bs 104 4)) (ofBeBytes (slice bs 104 4)) 0 with
  | none => rfl
  | some entries =>
    simp only [Option.map_some, Nat.zero_add]
    split
    · rfl
    split
    · rfl
    split <;> rfl

/-- The decoder stays inside its input and inside its integers, whatever the bytes. -/
theorem ControlEnvelope.decodeChecked_eq (O : Outside) (key : Str) (bs : Bytes) :
    decodeChecked O key bs = some (decode O key bs) := by
  unfold decodeChecked decode
  split
  · rw [ValueManifest.decodeChecked_eq]
    rfl
  · rw [ValueEnvelope.decodeChecked_eq]
    rfl

/-! ### What the writers build -/

/-- Appending a last chunk to full ones. -/
theorem CanonicalTable.append_last {full : List ManifestEntry} {e : ManifestEntry}
    (hf : ∀ f ∈ full, f.encodedLen = chunkBytes) (he : 1 ≤ e.encodedLen ∧ e.encodedLen ≤ chunkBytes) :
    CanonicalTable (full ++ [e]) := by
  induction full with
  | nil => exact he
  | cons f rest ih =>
    rw [List.cons_append, canonicalTable_cons]
    refine ⟨?_, ih fun g hg => hf g (List.mem_cons_of_mem _ hg)⟩
    rw [show (rest ++ [e]).isEmpty = false by cases rest <;> rfl]
    exact hf f (List.mem_cons_self ..)

/-- Full chunks only. -/
theorem canonicalTable_full {full : List ManifestEntry} (hf : ∀ f ∈ full, f.encodedLen = chunkBytes) :
    CanonicalTable full := by
  rcases List.eq_nil_or_concat' full with rfl | ⟨init, e, rfl⟩
  · trivial
  · have he := hf e (by simp)
    have hpos : 1 ≤ chunkBytes := by decide
    exact .append_last (fun f hm => hf f (by simp [hm])) ⟨he ▸ hpos, he.le⟩

theorem sum_full {full : List ManifestEntry} (hf : ∀ f ∈ full, f.encodedLen = chunkBytes) :
    (full.map (·.encodedLen)).sum = chunkBytes * full.length := by
  rw [List.map_congr_left hf, List.map_const', List.sum_replicate, smul_eq_mul, Nat.mul_comm]

/-- A manifest of a canonical table, with its root computed. -/
theorem manifestOf_canonical {O : Outside} (hO : ∀ b, (O.sha256 b).length = 32) {incarnation version : UInt64}
    {commitId : Bytes} (hid : commitId.length = 16) {logicalLen : ℕ} {entries : List ManifestEntry}
    (hd : ∀ e ∈ entries, e.sha256.length = 32) (hmin : minChunks ≤ entries.length) (hmax : entries.length ≤ maxChunks)
    (ht : CanonicalTable entries) (hs : (entries.map (·.encodedLen)).sum = logicalLen) :
    (manifestOf O incarnation version commitId logicalLen entries).Canonical O :=
  ⟨hid, hd, hO _, rfl, hmin, hmax, ht, hs, rfl⟩

/-- The chunks of a value that is not empty: full ones, and a last one. -/
theorem chunksOf_eq {value : Bytes} (hv : value ≠ []) : ∃ full last, chunksOf value = full ++ [last] ∧
    (∀ c ∈ full, c.length = chunkBytes) ∧ 1 ≤ last.length ∧ last.length ≤ chunkBytes ∧ full.flatten ++ last = value := by
  cases value with
  | nil => exact absurd rfl hv
  | cons x xs =>
    obtain ⟨full, last, hgo, h⟩ := @toChunks_go _ chunkBytes xs #[x] #[] (Nat.le_refl 1)
      (show 1 ≤ chunkBytes by decide)
    exact ⟨full, last, hgo, h⟩

theorem length_flatten_full {full : List Bytes} (hf : ∀ c ∈ full, c.length = chunkBytes) :
    full.flatten.length = chunkBytes * full.length := by
  rw [List.length_flatten, List.map_congr_left hf, List.map_const', List.sum_replicate, smul_eq_mul, Nat.mul_comm]

/-- The full chunks of a buffer leave less than a chunk. -/
theorem fullChunks_spec (bs : Bytes) : (∀ c ∈ fullChunks bs, c.length = chunkBytes) ∧
    chunkBytes * (fullChunks bs).length ≤ bs.length ∧ bs.length < chunkBytes * (fullChunks bs).length + chunkBytes := by
  refine ⟨fun c hc => by simpa using (List.mem_filter.1 hc).2, ?_⟩
  by_cases hv : bs = []
  · subst hv
    decide
  obtain ⟨full, last, hc, hf, hl, hle, hflat⟩ := chunksOf_eq hv
  have hlen : bs.length = chunkBytes * full.length + last.length := by
    rw [← hflat, List.length_append, length_flatten_full hf]
  have hfilter : full.filter (fun c : Bytes => c.length = chunkBytes) = full :=
    List.filter_eq_self.2 fun c hc => by simpa using hf c hc
  rw [fullChunks, hc, List.filter_append, hfilter, hlen]
  by_cases hlast : last.length = chunkBytes
  · have hone : [last].filter (fun c : Bytes => c.length = chunkBytes) = [last] := by simp [hlast]
    rw [hone, List.length_append, List.length_singleton, Nat.mul_add, Nat.mul_one]
    omega
  · have hnone : [last].filter (fun c : Bytes => c.length = chunkBytes) = [] := by simp [hlast]
    rw [hnone, List.append_nil]
    omega

/-- An operation that, whatever the store answers, returns a manifest that reads back as itself. -/
def Builds (O : Outside) (p : KeyOp ValueManifest) : Prop :=
  p.run.Every (fun _ => True) fun r => ∀ m, r = .ok m → m.Canonical O ∧ ∀ key, ControlEnvelope.decode O key m.encode = .ok (.chunked m)

theorem builds_pure {O : Outside} {m : ValueManifest} (h : m.Canonical O) : Builds O (pure m) := by
  rintro _ ⟨⟩
  exact ⟨h, fun key => ControlEnvelope.decode_chunked.2 ⟨h, rfl⟩⟩

theorem builds_throw {O : Outside} {e : KeyspaceError} : Builds O (throw e) := nofun

/-- What precedes a build does not matter, if what it hands on is right. -/
theorem builds_bind {O : Outside} {α : Type} {p : KeyOp α} {f : α → KeyOp ValueManifest} {R : α → Prop}
    (hp : p.run.Every (fun _ => True) fun r => ∀ a, r = .ok a → R a) (hf : ∀ a, R a → Builds O (f a)) : Builds O (p >>= f) := by
  unfold Builds
  rw [Prog.every_bindE]
  refine hp.imp ?_
  rintro (e | a) ha
  · exact nofun
  · exact hf a (ha a rfl)

/-- Only the last step of a program says what it returns. -/
theorem every_last {α β : Type} {p : KeyOp α} {f : α → KeyOp β} {R : β → Prop}
    (hf : ∀ a, (f a).run.Every (fun _ => True) fun r => ∀ b, r = .ok b → R b) :
    (p >>= f).run.Every (fun _ => True) fun r => ∀ b, r = .ok b → R b := by
  rw [Prog.every_bindE]
  refine (Prog.every_true _).imp ?_
  rintro (e | a) -
  · exact nofun
  · exact hf a

theorem encodedLen_map {O : Outside} {cs : List Bytes} (hf : ∀ c ∈ cs, c.length = chunkBytes) :
    ∀ e ∈ cs.map (hashEntry O), e.encodedLen = chunkBytes := by
  intro e he
  obtain ⟨c, hc, rfl⟩ := List.mem_map.1 he
  exact hf c hc

section
variable {O : Outside} (hO : ∀ b, (O.sha256 b).length = 32) {K : AtomicKeyspace} {key : Str} {commitId : Bytes}
  (hid : commitId.length = 16)
include hO

theorem digests_map (cs : List Bytes) : ∀ e ∈ cs.map (hashEntry O), e.sha256.length = 32 := by
  intro e he
  obtain ⟨c, -, rfl⟩ := List.mem_map.1 he
  exact hO c

include hid

/-- The manifest of a whole value, of a size that is written chunked. -/
theorem builds_stageChunks {value : Bytes} (hmin : inlineMax < value.length) (hmax : value.length ≤ maxLogicalBytes)
    (incarnation version : UInt64) : Builds O (stageChunks O K key value incarnation version commitId) := by
  have hv : value ≠ [] := by
    rintro rfl
    exact absurd hmin (by decide)
  obtain ⟨full, last, hc, hf, hl, hle, hflat⟩ := chunksOf_eq hv
  have hlen : value.length = chunkBytes * full.length + last.length := by
    rw [← hflat, List.length_append, length_flatten_full hf]
  have hfull := encodedLen_map (O := O) hf
  refine every_last fun _ => builds_pure ?_
  rw [hc, List.map_append]
  have hbound : value.length = 16777216 * full.length + last.length := hlen
  have hC : chunkBytes = 16777216 := rfl
  have hI : inlineMax = 67108864 := rfl
  have hM : maxLogicalBytes = 1099511627776 := rfl
  have hmaxc : maxChunks = 65536 := rfl
  have hminc : minChunks = 2 := rfl
  refine manifestOf_canonical hO hid ?_ ?_ ?_ (.append_last hfull ⟨hl, hle⟩) ?_
  · rw [← List.map_append]
    exact digests_map hO _
  · simp only [List.length_append, List.length_map, List.length_singleton]
    omega
  · simp only [List.length_append, List.length_map, List.length_singleton]
    omega
  · rw [List.map_append, List.sum_append, sum_full hfull, List.length_map, hlen]
    simp [hashEntry]

omit hid

/-- What a writer has taken so far: full chunks, and a rest in its buffer. -/
structure ValueWriter.Ok (w : ValueWriter) : Prop where
  digests : ∀ e ∈ w.entries, e.sha256.length = 32
  full : ∀ e ∈ w.entries, e.encodedLen = chunkBytes
  buffer : w.buffer.length < chunkBytes
  total : w.totalLen = chunkBytes * w.entries.length + w.buffer.length

theorem every_writeBuffer {w : ValueWriter} (hw : w.Ok) (buf : Bytes) :
    (writeBuffer O K key w buf).run.Every (fun _ => True) fun r => ∀ w', r = .ok w' → w'.Ok := by
  unfold writeBuffer
  split
  · exact nofun
  refine every_last fun _ => ?_
  rintro _ ⟨⟩
  obtain ⟨hf, hle, hlt⟩ := fullChunks_spec (w.buffer ++ buf)
  have htotal := hw.total
  rw [List.length_append] at hle hlt
  refine ⟨?_, ?_, ?_, ?_⟩
  · intro e he
    rcases List.mem_append.1 he with he | he
    · exact hw.digests e he
    · exact digests_map hO _ e he
  · intro e he
    rcases List.mem_append.1 he with he | he
    · exact hw.full e he
    · exact encodedLen_map hf e he
  · rw [List.length_drop, List.length_append]
    omega
  · simp only [List.length_drop, List.length_append, List.length_map, Nat.mul_add]
    omega

theorem every_writeAll {w : ValueWriter} (hw : w.Ok) (bufs : List Bytes) :
    (writeAll O K key w bufs).run.Every (fun _ => True) fun r => ∀ w', r = .ok w' → w'.Ok := by
  induction bufs generalizing w with
  | nil =>
    rintro _ ⟨⟩
    exact hw
  | cons buf bufs ih =>
    unfold writeAll
    rw [Prog.every_bindE]
    refine (every_writeBuffer hO hw buf).imp ?_
    rintro (e | w') hw'
    · exact nofun
    · exact ih (hw' w' rfl)

include hid

/-- The manifest a writer seals. -/
theorem builds_sealValue {w : ValueWriter} (hw : w.Ok) : Builds O (sealValue O K key w commitId) := by
  have htotal := hw.total
  unfold sealValue
  refine builds_bind (R := fun es => (∀ e ∈ es, e.sha256.length = 32) ∧ CanonicalTable es ∧
    (es.map (·.encodedLen)).sum = w.totalLen) ?_ ?_
  · unfold sealEntries
    split
    · next hb =>
      rintro _ ⟨⟩
      rw [hb, List.length_nil, Nat.add_zero] at htotal
      exact ⟨hw.digests, canonicalTable_full hw.full, by rw [sum_full hw.full, htotal]⟩
    · next hb =>
      refine every_last fun _ => ?_
      rintro _ ⟨⟩
      refine ⟨?_, .append_last hw.full ⟨List.length_pos_iff.2 hb, hw.buffer.le⟩, ?_⟩
      · intro e he
        rcases List.mem_append.1 he with he | he
        · exact hw.digests e he
        · exact digests_map hO [w.buffer] e (by simpa using he)
      · rw [List.map_append, List.sum_append, sum_full hw.full, htotal]
        simp [hashEntry]
  · rintro es ⟨hd, ht, hs⟩
    split
    · next hc => exact builds_pure (manifestOf_canonical hO hid hd hc.1 hc.2 ht hs)
    · exact builds_throw

/-- The control format is canonical and unambiguous, and the writers keep to it. -/
theorem control_format :
    (∀ key bs, ControlEnvelope.decodeChecked O key bs = some (ControlEnvelope.decode O key bs)) ∧
    (∀ key bs e, ControlEnvelope.decode O key bs = .ok (.inline e) ↔ bs = e.encode) ∧
    (∀ key bs m, ControlEnvelope.decode O key bs = .ok (.chunked m) ↔ m.Canonical O ∧ bs = m.encode) ∧
    (∀ (e : ValueEnvelope) (m : ValueManifest), e.encode ≠ m.encode) ∧
    (∀ value incarnation version, inlineMax < value.length → value.length ≤ maxLogicalBytes →
      Builds O (stageChunks O K key value incarnation version commitId)) ∧
    (∀ bufs, Builds O (do
      let writer ← beginStreamCreate K key
      let writer ← writeAll O K key writer bufs
      sealValue O K key writer commitId)) ∧
    ∀ expectedEtag bufs, Builds O (do
      let writer ← beginStreamCompareExchange O K key expectedEtag
      let writer ← writeAll O K key writer bufs
      sealValue O K key writer commitId) := by
  have hnew : ∀ incarnation version, ValueWriter.Ok ⟨incarnation, version, [], 0, []⟩ := fun _ _ =>
    ⟨nofun, nofun, show 0 < chunkBytes by decide, rfl⟩
  have hstream : ∀ {w : ValueWriter}, w.Ok → ∀ bufs, Builds O (do
      let writer ← writeAll O K key w bufs
      sealValue O K key writer commitId) := fun hw bufs =>
    builds_bind (every_writeAll hO hw bufs) fun _ hw' => builds_sealValue hO hid hw'
  refine ⟨ControlEnvelope.decodeChecked_eq O, fun _ _ _ => ControlEnvelope.decode_inline,
    fun _ _ _ => ControlEnvelope.decode_chunked, fun e m h => ?_,
    fun _ i v hmin hmax => builds_stageChunks hO hid hmin hmax i v, fun bufs => ?_, fun expectedEtag bufs => ?_⟩
  · have hm := isPrefixOf_encode m
    rw [← h, not_isPrefixOf_envelope] at hm
    cases hm
  · refine builds_bind (R := ValueWriter.Ok) ?_ fun w hw => hstream hw bufs
    refine every_last fun _ => every_last fun _ => every_last fun _ => every_last fun _ => ?_
    rintro _ ⟨⟩
    exact hnew _ _
  · refine builds_bind (R := ValueWriter.Ok) ?_ fun w hw => hstream hw bufs
    refine every_last fun _ => every_last fun _ => every_last fun _ => every_last fun _ => ?_
    rintro _ ⟨⟩
    exact hnew _ _

end

/-- The format with SHA-256 itself, on the envelope of a one-byte value. -/
theorem control_format_envelope :
    ControlEnvelope.decode ⟨Sha256.digest, fun _ => [], fun _ => none⟩ "k".toList (ValueEnvelope.encode ⟨0, 0, [1]⟩) =
      .ok (.inline ⟨0, 0, [1]⟩) :=
  ((@control_format ⟨Sha256.digest, fun _ => [], fun _ => none⟩ Sha256.digest_length ⟨"n".toList, by decide⟩ "k".toList
    (List.replicate 16 0) rfl).2.1 _ _ _).2 rfl

end YeetzS3.Keyspace
