import YeetzS3.Streams.Genesis

/-!
# Cursors

The cursor of one consumer, while its stream is written, trimmed and collected. `cursorLaw` is the law of a dense log with a
cursor beside it: the cursor does not move back, and it names an event that is there or below a certified floor. What keeps
the log dense and stays off the cursor keeps `cursorLaw`; an advance replaces the cursor it read.
-/

namespace YeetzS3.Streams

open Conc
open Keyspace (AtomicKeyspace SpaceCall Key ValidPath Open incarnationKey tombstoneKey inlineBytes)

/-! ### The key of a cursor -/

section
variable {stream : StreamId} {K : AtomicKeyspace} {key consumer a b r v w x y : Str} {p q f : UInt64}

/-- Names in one directory that begin with different letters. -/
theorem entry_ne {c d : Char} (ha : a.head? = some c) (hb : b.head? = some d) (hcd : c ≠ d) :
    v ++ '/' :: (a ++ x) ≠ v ++ '/' :: (b ++ y) := by
  intro h
  have htail := (List.cons.inj (List.append_cancel_left h)).2
  have hhead := congrArg List.head? htail
  rw [List.head?_append, List.head?_append, ha, hb, Option.some_or, Option.some_or] at hhead
  exact hcd (Option.some.inj hhead)

/-- A key below a directory of one name is in that directory. -/
theorem prefix_of_dir (hr : '/' ∉ r) (h : v ++ '/' :: x = r ++ '/' :: w) : r <+: v := by
  rcases List.append_eq_append_iff.1 h with ⟨c, rfl, hc⟩ | ⟨c, rfl, -⟩
  · cases c with
    | nil => rw [List.append_nil]
    | cons d c =>
      rw [List.cons_append, List.cons.injEq] at hc
      exact absurd (by rw [← hc.1]; simp) hr
  · exact List.prefix_append _ _

/-- A stream with an open key is not in a reserved directory. -/
theorem not_reserved (ho : Open (v ++ '/' :: x)) : v ++ '/' :: y ≠ incarnationKey w ∧ v ++ '/' :: y ≠ tombstoneKey w := by
  have hprefix : ∀ {r : Str}, r <+: v → r.isPrefixOf (v ++ '/' :: x) = true ∧ r.length < (v ++ '/' :: x).length := by
    intro r hr
    refine ⟨List.isPrefixOf_iff_prefix.2 (hr.trans (List.prefix_append _ _)), ?_⟩
    have := hr.length_le
    rw [List.length_append, List.length_cons]
    omega
  refine ⟨fun h => ?_, fun h => ?_⟩
  · obtain ⟨hpre, hlen⟩ := hprefix (prefix_of_dir (by decide) h)
    rw [show "incarnations".toList.length = 12 by decide] at hlen
    unfold Open Keyspace.ensureNotReservedKey at ho
    generalize v ++ '/' :: x = k at ho hlen hpre
    split at ho
    · cases ho
    · rw [if_pos ⟨hpre, hlen⟩] at ho
      cases ho
  · obtain ⟨hpre, hlen⟩ := hprefix (prefix_of_dir (by decide) h)
    rw [show "tombstones".toList.length = 10 by decide] at hlen
    unfold Open Keyspace.ensureNotReservedKey at ho
    generalize v ++ '/' :: x = k at ho hlen hpre
    rw [if_pos ⟨hpre, hlen⟩] at ho
    cases ho

theorem cursorKey_eq (hk : stream.cursorKey consumer = .ok key) : key = stream.value ++ '/' :: ("cursors/".toList ++ consumer) := by
  have hkey : key = stream.value ++ "/cursors/".toList ++ consumer := (checked_ok.1 hk).2
  rw [hkey, List.append_assoc, show "/cursors/".toList = '/' :: "cursors/".toList by decide, List.cons_append]

theorem logKey_eq : stream.logKey q = stream.value ++ '/' :: ("log/".toList ++ seqComponent q) := by
  unfold StreamId.logKey StreamId.logPrefix
  rw [show "/log/".toList = '/' :: "log/".toList by decide, List.append_assoc, List.cons_append]

theorem tailKey_eq : stream.tailKey = stream.value ++ '/' :: ("tail".toList ++ []) := by
  unfold StreamId.tailKey
  rw [show "/tail".toList = '/' :: "tail".toList by decide, List.append_nil]

theorem cert_eq : stream.certPrefix ++ seqComponent f = stream.value ++ '/' :: ("trims".toList ++ '/' :: seqComponent f) := by
  unfold StreamId.certPrefix
  generalize "trims".toList = l
  simp

theorem cursorKey_ne_logKey (hk : stream.cursorKey consumer = .ok key) : key ≠ stream.logKey q := by
  rw [cursorKey_eq hk, logKey_eq]
  exact entry_ne (c := 'c') (d := 'l') (by decide) (by decide) (by decide)

theorem cursorKey_ne_tailKey (hk : stream.cursorKey consumer = .ok key) : key ≠ stream.tailKey := by
  rw [cursorKey_eq hk, tailKey_eq]
  exact entry_ne (c := 'c') (d := 't') (by decide) (by decide) (by decide)

theorem cursorKey_ne_cert (hk : stream.cursorKey consumer = .ok key) : key ≠ stream.certPrefix ++ seqComponent f := by
  rw [cursorKey_eq hk, cert_eq]
  exact entry_ne (c := 'c') (d := 't') (by decide) (by decide) (by decide)

/-- A cursor of a stream with open keys is not among the events, their counters and the certificates. -/
theorem not_region_cursor (hk : stream.cursorKey consumer = .ok key) (ho : Open (stream.value ++ '/' :: x)) :
    ¬ stream.Region K (K.root ++ key) := by
  rintro ⟨q, ⟨-, h⟩ | h | h⟩
  · exact cursorKey_ne_logKey hk (List.append_cancel_left h)
  · have h := List.append_cancel_left h
    rw [cursorKey_eq hk] at h
    exact (not_reserved ho).1 h
  · exact cursorKey_ne_cert hk (List.append_cancel_left h)

/-- A sweep of the log leaves the cursor and its counter. -/
theorem swept_ne_cursor (hk : stream.cursorKey consumer = .ok key) (ho : Open key) {pfx : Str}
    (hp : pfx ∈ Keyspace.sweptPrefixes stream.logPrefix) : pfx ++ seqComponent q ≠ key ∧ pfx ++ seqComponent q ≠ incarnationKey key := by
  have hkey := cursorKey_eq hk
  have ho' := ho
  rw [hkey] at ho'
  rcases @swept_cases _ q _ hp with h | h | h
  · rw [h]
    refine ⟨(cursorKey_ne_logKey hk).symm, ?_⟩
    rw [logKey_eq]
    exact (not_reserved ho').1
  · rw [h]
    refine ⟨fun he => ?_, fun he => ?_⟩
    · rw [hkey] at he
      exact (not_reserved ho').2 he.symm
    · have hhead := congrArg List.head? he
      unfold tombstoneKey incarnationKey at hhead
      rw [List.head?_append, List.head?_append, show "tombstones".toList.head? = some 't' by decide,
        show "incarnations".toList.head? = some 'i' by decide] at hhead
      cases hhead
  · rw [h]
    refine ⟨fun he => ?_, fun he => ?_⟩
    · rw [hkey] at he
      exact (not_reserved ho').1 he.symm
    · have he : stream.logKey q = key := (List.cons.inj (List.append_cancel_left he)).2
      exact cursorKey_ne_logKey hk he.symm

end

/-! ### The law -/

section
variable (X : Crates) (K : AtomicKeyspace) (stream : StreamId) (key : Str)

/-- The cursor that is stored at `key`. -/
def StoredCursor (s : Store) (cursor : Cursor) : Prop :=
  ∃ o version, s.lookup (K.root ++ key) = some o ∧ o.data = inlineBytes version (X.cursor.toVec cursor)

/-- The event of a cursor is there. -/
def StreamId.Marks (s : Store) (cursor : Cursor) : Prop :=
  ∃ bytes landed, stream.ReadsAs X K s cursor.seq bytes ∧ Envelope.decodeAndVerify X stream cursor.seq bytes = some landed ∧
    landed.stableEventId.value = cursor.eventId

/-- A cursor of the stream: its event is there, or is below a certified floor. -/
structure StreamId.Points (s : Store) (cursor : Cursor) : Prop where
  version : cursor.formatVersion = envelopeFormatVersion
  stream_eq : cursor.streamId = stream
  pos : 0 < cursor.seq
  event : stream.Marks X K s cursor ∨ ∃ f, K.Certified s stream.certPrefix f ∧ cursor.seq < f

/-- A dense log, and a cursor that was never destroyed. -/
structure StreamId.Tracked (B : Backend) (s : Store) : Prop where
  dense : stream.Dense K B s
  uncounted : s.lookup (K.root ++ incarnationKey key) = none
  cursor : ∀ o, s.lookup (K.root ++ key) = some o → ∃ cursor, StoredCursor X K key s cursor ∧ stream.Points X K s cursor

/-- The law of a cursor: the log goes on as a dense log, and the cursor does not move back. -/
def cursorLaw (B : Backend) : Law Store where
  Good s := stream.Tracked X K key B s
  Goes s s' := (densityLaw B K stream).Goes s s' ∧ ∀ cursor, StoredCursor X K key s cursor →
    ∃ cursor', StoredCursor X K key s' cursor' ∧ cursor.seq ≤ cursor'.seq
  refl s := ⟨(densityLaw B K stream).refl s, fun cursor hc => ⟨cursor, hc, UInt64.le_refl _⟩⟩
  trans := by
    rintro s t u ⟨hd₁, hc₁⟩ ⟨hd₂, hc₂⟩
    refine ⟨(densityLaw B K stream).trans hd₁ hd₂, fun cursor hc => ?_⟩
    obtain ⟨cursor', hc', hle⟩ := hc₁ cursor hc
    obtain ⟨cursor'', hc'', hle'⟩ := hc₂ cursor' hc'
    exact ⟨cursor'', hc'', UInt64.le_trans hle hle'⟩

/-- The place of a cursor, and of its counter. -/
def CursorRegion : YeetzS3.Region := fun p => p = K.root ++ key ∨ p = K.root ++ incarnationKey key

end

section
variable {X : Crates} {K : AtomicKeyspace} {B : Backend} {stream : StreamId} {s s' : Store} {o : Object} {key consumer : Str}
  {cursor cursor' : Cursor} {p q f version : UInt64} {bytes d : Bytes} {e : Etag} {r : Req}

theorem inlineBytes_payload {version version' : UInt64} {bytes bytes' : Bytes} (h : inlineBytes version bytes = inlineBytes version' bytes') :
    bytes = bytes' := by
  have hread := Keyspace.ValueEnvelope.decode_encode [] ⟨0, version, bytes⟩
  have hread' := Keyspace.ValueEnvelope.decode_encode [] ⟨0, version', bytes'⟩
  rw [show Keyspace.ValueEnvelope.encode ⟨0, version, bytes⟩ = inlineBytes version bytes from rfl, h] at hread
  cases hread.symm.trans hread'
  rfl

theorem toVec_cursor_injective (h : X.cursor.toVec cursor = X.cursor.toVec cursor') : cursor = cursor' := by
  have hread := congrArg X.cursor.fromSlice h
  rw [X.cursor.fromSlice_toVec, X.cursor.fromSlice_toVec] at hread
  exact Option.some.inj hread

theorem storedCursor_unique (h : StoredCursor X K key s cursor) (h' : StoredCursor X K key s cursor') : cursor = cursor' := by
  obtain ⟨o, v, ho, hd⟩ := h
  obtain ⟨o', v', ho', hd'⟩ := h'
  obtain rfl := Option.some.inj (ho.symm.trans ho')
  exact toVec_cursor_injective (inlineBytes_payload (hd.symm.trans hd'))

/-- A step of the log keeps what a cursor names, or certifies a floor above it. -/
theorem StreamId.Points.kept (hc : stream.Points X K s cursor) (hg : (densityLaw B K stream).Goes s s') : stream.Points X K s' cursor := by
  obtain ⟨hversion, hstream, hpos, hevent⟩ := hc
  refine ⟨hversion, hstream, hpos, ?_⟩
  rcases hevent with ⟨bytes, landed, ⟨o, ho, hshows⟩, hv, hid⟩ | ⟨f, hf, hlt⟩
  · by_cases hret : stream.Retained K s' cursor.seq
    · exact .inl ⟨bytes, landed, ⟨o, hg.2.2 _ hret o ho, hshows⟩, hv, hid⟩
    · right
      rw [StreamId.Retained, not_and, not_forall] at hret
      obtain ⟨f, hf⟩ := hret hpos
      rw [Classical.not_imp, UInt64.not_le] at hf
      exact ⟨f, hf⟩
  · exact .inr ⟨f, hg.1 f hf, hlt⟩

theorem cursorLaw_inv {Call : Type} {Res : Call → Type} {h : History Call Res} (hI : (cursorLaw X K stream key B).Inv B.delivers h) :
    (densityLaw B K stream).Inv B.delivers h := hI.imp (fun _ hs => hs.dense) fun _ _ hg => hg.1

theorem points_stable (cursor : Cursor) : (cursorLaw X K stream key B).Stable fun s => stream.Points X K s cursor :=
  fun _ _ _ _ hg hc => hc.kept hg.1

/-- What keeps the log dense and stays off the cursor. -/
theorem tracked_aside (hs : stream.Tracked X K key B s) (hgood : (densityLaw B K stream).Good s') (hgoes : (densityLaw B K stream).Goes s s')
    (ha : Agree (CursorRegion K key) s s') :
    (cursorLaw X K stream key B).Good s' ∧ (cursorLaw X K stream key B).Goes s s' := by
  have hkey : AList.lookup (K.root ++ key) s' = s.lookup (K.root ++ key) := ha _ (.inl rfl)
  have hstored : ∀ cursor, StoredCursor X K key s cursor → StoredCursor X K key s' cursor := by
    rintro cursor ⟨o, v, ho, hd⟩
    exact ⟨o, v, by rw [hkey, ho], hd⟩
  refine ⟨⟨hgood, ?_, fun o ho => ?_⟩, hgoes, fun cursor hc => ⟨cursor, hstored cursor hc, UInt64.le_refl _⟩⟩
  · rw [ha _ (.inr rfl)]
    exact hs.uncounted
  · rw [hkey] at ho
    obtain ⟨cursor, hc, hpoints⟩ := hs.cursor o ho
    exact ⟨cursor, hstored cursor hc, hpoints.kept hgoes⟩

/-- A cursor that is put over nothing, or over one before it. -/
theorem tracked_insert (hk : stream.cursorKey consumer = .ok key) (hopen : Open key) (hs : stream.Tracked X K key B s)
    (hpoints : stream.Points X K s cursor) (hbefore : ∀ cursor', StoredCursor X K key s cursor' → cursor'.seq ≤ cursor.seq)
    (he : B.tags (inlineBytes version (X.cursor.toVec cursor)) e) :
    (cursorLaw X K stream key B).Good (s.insert (K.root ++ key) ⟨inlineBytes version (X.cursor.toVec cursor), e⟩) ∧
      (cursorLaw X K stream key B).Goes s (s.insert (K.root ++ key) ⟨inlineBytes version (X.cursor.toVec cursor), e⟩) := by
  have hdir := hopen
  rw [cursorKey_eq hk] at hdir
  obtain ⟨hgood, hgoes⟩ := densityLaw_over.frame s (s.insert (K.root ++ key) ⟨inlineBytes version (X.cursor.toVec cursor), e⟩) hs.dense
    (hs.dense.tagged.insert he) (.of_insert (not_region_cursor hk hdir))
  have hstored : StoredCursor X K key (s.insert (K.root ++ key) ⟨inlineBytes version (X.cursor.toVec cursor), e⟩) cursor :=
    ⟨_, version, AList.lookup_insert .., rfl⟩
  refine ⟨⟨hgood, ?_, fun _ _ => ⟨cursor, hstored, hpoints.kept hgoes⟩⟩, hgoes, fun cursor' hc => ⟨cursor, hstored, hbefore cursor' hc⟩⟩
  rw [lookup_insert_key]
  · exact hs.uncounted
  · intro h
    rw [← h] at hopen
    exact not_open_incarnationKey hopen

theorem cursorLaw_uncounted : Keyspace.Uncounted K (cursorLaw X K stream key B) key := fun _ hs => hs.uncounted

/-! ### Calls on the log -/

/-- A call that publishes elsewhere leaves the cursor as it is. -/
theorem agree_of_asks {c : StreamCall} {x : Resp r} (hn : stream.value ≠ []) (hk : stream.cursorKey consumer = .ok key) (hopen : Open key)
    (hstream : c.stream = stream) (hp : ∀ key', c.Publishes key' → key' ≠ key ∧ key' ≠ incarnationKey key) (hr : c.Asks X K r)
    (hx : B.delivers s r x s') : Agree (CursorRegion K key) s s' := by
  have hdir := hopen
  rw [cursorKey_eq hk] at hdir
  rcases hr with hr | ⟨sc, huses, hw⟩
  · rw [Backend.looks_store (Keyspace.looks_of_reads r hr) hx]
    exact fun _ _ => rfl
  cases huses with
  | publish hkey hsc =>
    obtain ⟨hne, hne'⟩ := hp _ hkey
    refine (within_of_publishes hsc hw).delivers_frame ?_ hx
    rintro p (rfl | hchunk) (h | h)
    · exact hne (List.append_cancel_left h)
    · exact hne' (List.append_cancel_left h)
    · exact hchunk _ h
    · exact hchunk _ h
  | certify stream' firstRetained =>
    obtain rfl : stream' = stream := hstream
    cases hw with
    | control hc | chunk hc | evict hc => cases hc
    | delete hc => cases hc
    | certify hs hv =>
      obtain rfl := trimCertPrefix_of_ne_nil hn hs
      have hwithin : Req.Within (fun p => p = K.root ++ (stream'.certPrefix ++ seqComponent firstRetained))
          (.put (K.root ++ (stream'.certPrefix ++ seqComponent firstRetained)) Keyspace.certificateBytes none) := pathFrom_key hv
      refine hwithin.delivers_frame ?_ hx
      rintro p rfl (h | h)
      · exact cursorKey_ne_cert hk (List.append_cancel_left h).symm
      · have h := List.append_cancel_left h
        rw [cert_eq] at h
        exact (not_reserved hdir).1 h
  | sweep stream' floor =>
    obtain rfl : stream' = stream := hstream
    cases hw with
    | control hc | chunk hc | evict hc => cases hc
    | delete hc => cases hc
    | @sweep _ _ pfx _ seq hp h0 hlt hv =>
      have hwithin : Req.Within (fun p => p = K.root ++ (pfx ++ seqComponent seq)) (.delete (K.root ++ (pfx ++ seqComponent seq))) :=
        pathFrom_key hv
      refine hwithin.delivers_frame ?_ hx
      rintro p rfl (h | h)
      · exact (swept_ne_cursor hk hopen hp).1 (List.append_cancel_left h)
      · exact (swept_ne_cursor hk hopen hp).2 (List.append_cancel_left h)

variable {Call : Type} {Res : Call → Type} {S : System Store Req Resp Call Res} {t fuel n : ℕ} {h h' : History Call Res} {ids : ℕ → Bytes}

/-- A call that keeps the log dense and publishes elsewhere. -/
theorem cursor_aside (hn : stream.value ≠ []) (hk : stream.cursorKey consumer = .ok key) (hopen : Open key) (hS : S.exec = B.delivers)
    {c : StreamCall} (hstream : c.stream = stream) (hp : ∀ key', c.Publishes key' → key' ≠ key ∧ key' ≠ incarnationKey key)
    (hd : Safe S ((densityLaw B K stream).Inv B.delivers) t (c.prog X K fuel) (fun _ _ => True) h) :
    Safe S ((cursorLaw X K stream key B).Inv B.delivers) t (c.prog X K fuel) (fun _ _ => True) h := by
  refine Law.safe_lift (L := densityLaw B K stream) (P := c.Asks X K) hS (fun _ hs => hs.dense) (fun _ _ hg => hg.1) ?_ c.asks hd
  intro s r x s' hs hr hx hgood hgoes
  exact tracked_aside hs hgood hgoes (agree_of_asks hn hk hopen hstream hp hr hx)

theorem cursor_onLog (hn : stream.value ≠ []) (hk : stream.cursorKey consumer = .ok key) (hopen : Open key) (hS : S.exec = B.delivers)
    {c : StreamCall} (hc : c.OnLog stream) (hI : (cursorLaw X K stream key B).Inv B.delivers h) :
    Safe S ((cursorLaw X K stream key B).Inv B.delivers) t (c.prog X K fuel) (fun _ _ => True) h := by
  have hdir := hopen
  rw [cursorKey_eq hk] at hdir
  have htail : stream.tailKey ≠ key ∧ stream.tailKey ≠ incarnationKey key := by
    refine ⟨(cursorKey_ne_tailKey hk).symm, ?_⟩
    rw [tailKey_eq]
    exact (not_reserved hdir).1
  have hlog : ∀ q, stream.logKey q ≠ key ∧ stream.logKey q ≠ incarnationKey key := by
    intro q
    refine ⟨(cursorKey_ne_logKey hk).symm, ?_⟩
    rw [logKey_eq]
    exact (not_reserved hdir).1
  refine cursor_aside hn hk hopen hS hc.1 ?_ (density_call hS hc (cursorLaw_inv hI))
  obtain ⟨rfl, hc⟩ := hc
  intro key' hp
  cases hp with
  | minted | genesis | event | expected => exact hlog _
  | appendTail | readTail => exact htail
  | _ => exact hc.elim

/-- The cursor of another consumer. -/
theorem cursor_other {consumer' : Str} {target : UInt64} (hn : stream.value ≠ []) (hk : stream.cursorKey consumer = .ok key)
    (hopen : Open key) (hS : S.exec = B.delivers) (hne : consumer' ≠ consumer) :
    Safe S ((cursorLaw X K stream key B).Inv B.delivers) t
      ((StreamCall.advanceCursor stream consumer' target ids).prog X K fuel) (fun _ _ => True) h := by
  have hdir := hopen
  rw [cursorKey_eq hk] at hdir
  refine cursor_aside hn hk hopen hS rfl ?_ (density_aside hS _ ?_ ?_)
  · intro key' hp
    cases hp with | cursor _ _ hk' => ?_
    rw [cursorKey_eq hk']
    refine ⟨fun h => hne ?_, (not_reserved hdir).1⟩
    rw [cursorKey_eq hk] at h
    exact List.append_cancel_left (List.cons.inj (List.append_cancel_left h)).2
  · intro key' hp
    cases hp with | cursor _ _ hk' => ?_
    exact not_region_cursor hk' hdir
  · rintro sc (⟨hkey, hsc⟩ | _ | _)
    exact ⟨_, hkey, hsc⟩

/-! ### Advancing -/

/-- What a read of the cursor's key shows is the stored cursor. -/
theorem stored_of_shows (hs : stream.Tracked X K key B s) (ho : s.lookup (K.root ++ key) = some o)
    (hshows : Keyspace.Shows X.toOutside key o bytes) :
    ∃ cursor version, o.data = inlineBytes version (X.cursor.toVec cursor) ∧ bytes = X.cursor.toVec cursor ∧ StoredCursor X K key s cursor := by
  obtain ⟨cursor, hstored, -⟩ := hs.cursor o ho
  obtain ⟨o', version, ho', hd⟩ := hstored
  obtain rfl := Option.some.inj (ho.symm.trans ho')
  obtain ⟨c, hc, hinl⟩ := hshows
  have hread : Keyspace.ControlEnvelope.decode X.toOutside key o.data = .ok (.inline ⟨0, version, X.cursor.toVec cursor⟩) :=
    Keyspace.ControlEnvelope.decode_inline.2 hd
  cases hc.symm.trans hread
  exact ⟨cursor, version, hd, (hinl _ rfl).symm, o, version, ho, hd⟩

/-- A cursor that was parsed is what its bytes say. -/
theorem parseCursor_ok (h : parseCursor X stream consumer bytes = .ok cursor) : X.cursor.fromSlice bytes = some cursor := by
  unfold parseCursor at h
  split at h
  · cases h
  next hs =>
  repeat' split at h
  all_goals cases h
  exact hs

/-- A cursor that was verified is what its bytes say. -/
theorem safe_decodeCursor (operation : String) (hS : S.exec = B.delivers) (hI : (cursorLaw X K stream key B).Inv B.delivers h) :
    Safe S ((cursorLaw X K stream key B).Inv B.delivers) t (decodeAndVerifyCursor X K fuel stream consumer bytes operation).run
      (fun r _ => ∀ cursor, r = .ok cursor → X.cursor.fromSlice bytes = some cursor) h := by
  have hfail : ∀ (e : StreamsError) {h' : History Call Res}, Safe S ((cursorLaw X K stream key B).Inv B.delivers) t (.ret (.error e))
      (fun (r : Except StreamsError Cursor) _ => ∀ cursor, r = .ok cursor → X.cursor.fromSlice bytes = some cursor) h' :=
    fun e _ => Safe.ret fun _ _ cursor hc => by cases hc
  refine safe_check (fun e _ _ _ cursor hc => by cases hc) fun cursor hparsed => ?_
  refine safe_mapErr_bind hI (Keyspace.safe_get hS) (fun e _ _ _ _ cursor hc => by cases hc) ?_
  rintro (_ | event) h₁ - hI₁ -
  · refine Safe.seqLift hI₁ (Law.safe_looks (Q := fun _ => True) hS (every_floorBeyond (Keyspace.allowsReads_of Keyspace.looks_of_reads) ..)) ?_
    rintro (_ | floor) h₂ - - -
    · exact hfail _
    · exact hfail _
  · dsimp only
    split
    · exact hfail _
    split
    · exact hfail _
    · refine Safe.ret fun _ _ cursor' hc => ?_
      cases hc
      exact parseCursor_ok hparsed

/-- The position an advance starts from is what the bytes it read say. -/
theorem safe_currentCursor (hS : S.exec = B.delivers) (hI : (cursorLaw X K stream key B).Inv B.delivers h) :
    Safe S ((cursorLaw X K stream key B).Inv B.delivers) t (currentCursor X K fuel stream consumer bytes).run
      (fun r _ => ∀ cursor, r = .ok cursor → X.cursor.fromSlice bytes = some cursor) h := by
  have hfail : ∀ (e : StreamsError) {h' : History Call Res}, Safe S ((cursorLaw X K stream key B).Inv B.delivers) t (.ret (.error e))
      (fun (r : Except StreamsError Cursor) _ => ∀ cursor, r = .ok cursor → X.cursor.fromSlice bytes = some cursor) h' :=
    fun e _ => Safe.ret fun _ _ cursor hc => by cases hc
  refine Safe.seqAttempt hI (safe_decodeCursor _ hS hI) ?_
  rintro (e | cursor) h₁ - hI₁ hread
  · cases e with
    | offsetExpired expired firstRetained =>
      dsimp only
      split
      · exact hfail _
      next cursor hc =>
      split
      · exact hfail _
      · refine Safe.ret fun _ _ cursor' hc' => ?_
        cases hc'
        exact hc
    | _ => exact hfail _
  · exact Safe.ret fun _ _ => hread

/-- The event of an advance is there when it is looked up. -/
theorem safe_cursorTarget {target : UInt64} (hS : S.exec = B.delivers) (hI : (cursorLaw X K stream key B).Inv B.delivers h) :
    Safe S ((cursorLaw X K stream key B).Inv B.delivers) t (cursorTarget X K fuel stream target).run
      (fun r h' => ∀ eventId, r = .ok eventId → Grammatical eventId ∧
        h'.Since h.now (stream.Marks X K · ⟨envelopeFormatVersion, stream, target, eventId⟩)) h := by
  refine safe_mapErr_bind hI (Keyspace.safe_get hS) (fun e _ _ _ _ eventId hr => by cases hr) ?_
  rintro (_ | bytes) h₁ hle₁ hI₁ hgot
  · refine Safe.seqLift hI₁ (Law.safe_looks (Q := fun _ => True) hS (every_floorBeyond (Keyspace.allowsReads_of Keyspace.looks_of_reads) ..)) ?_
    rintro (_ | floor) h₂ - - -
    · exact Safe.ret fun _ _ eventId hr => by cases hr
    · exact Safe.ret fun _ _ eventId hr => by cases hr
  · cases hgot with | shows hv => ?_
    refine safe_check (fun e _ _ _ eventId hr => by cases hr) fun landed hlanded => ?_
    refine Safe.ret fun h₂ hr₂ eventId hr => ?_
    cases hr
    have hread := verify_ok hlanded
    exact ⟨(Envelope.decodeAndVerify_bound hread).stableEventId,
      (hv.mono hr₂.le le_rfl).imp fun s hs => ⟨bytes, landed, hs, hread, rfl⟩⟩

/-- The cursor of a put that landed is stored when it lands. -/
theorem stored_of_put {i : ℕ} {c : Option Etag} {y : Option Etag} (hv : ValidPath key) (hI : (cursorLaw X K stream key B).Inv B.delivers h)
    (hn : n ≤ i) (ha : h.Asked i t (.put (K.root ++ key) (inlineBytes version (X.cursor.toVec cursor)) c) (.ok y)) :
    h.Since n (StoredCursor X K key · cursor) := by
  obtain ⟨-, e, -, hstore, -⟩ := Backend.delivers_put_ok (hI.exec ha)
  refine ⟨i + 1, by omega, ha.lt, ?_⟩
  rw [hstore, pathFrom_key hv]
  exact ⟨_, version, AList.lookup_insert .., rfl⟩

/-- A key that is no path is not read. -/
theorem getWithEtag_invalid {O : Outside} (hv : ¬ ValidPath key) : ∃ e, Keyspace.getWithEtag O K key = throw e := by
  unfold Keyspace.getWithEtag
  cases hp : K.objectKey key with
  | error e => exact ⟨e, rfl⟩
  | ok path => exact absurd (AtomicKeyspace.objectKey_ok hp).2 hv

/-- A cursor that is put over the one that was read, while it is there. -/
theorem lets_replaceCursor {current desired : Cursor} {etag : Etag} (hk : stream.cursorKey consumer = .ok key) (hopen : Open key)
    (hB : B.Sound) (hv : ValidPath key) (hs : stream.Tracked X K key B s) (hpoints : stream.Points X K s desired)
    (hread : ∃ version, B.tags (inlineBytes version (X.cursor.toVec current)) etag) (hle : current.seq ≤ desired.seq) :
    (cursorLaw X K stream key B).Lets B.delivers s
      (.put (K.root ++ key) (inlineBytes version (X.cursor.toVec desired)) (some etag)) := by
  refine lets_replace hs fun o ho heq e' he' => ?_
  rw [pathFrom_key hv] at ho ⊢
  refine tracked_insert hk hopen hs hpoints ?_ he'
  rintro cursor' ⟨o', v', ho', hd'⟩
  obtain rfl := Option.some.inj (ho.symm.trans ho')
  -- what has the etag that was read is what was read
  obtain ⟨v, htag⟩ := hread
  have htag' := hs.dense.tagged _ _ ho
  rw [heq] at htag'
  have hsame := hB _ _ _ htag' htag
  rw [hd'] at hsame
  rw [toVec_cursor_injective (inlineBytes_payload hsame)]
  exact hle

/-- The loop of an advance returns a cursor of the position, which was stored during the call. -/
theorem safe_advanceLoop {desired : Cursor} (hk : stream.cursorKey consumer = .ok key) (hopen : Open key) (hB : B.Sound)
    (hshort : (X.cursor.toVec desired).length ≤ Keyspace.inlineMax) (hS : S.exec = B.delivers) (tries : ℕ)
    (hI : (cursorLaw X K stream key B).Inv B.delivers h) (hn : n ≤ h.now) (hpoints : stream.Points X K h.store desired) :
    Safe S ((cursorLaw X K stream key B).Inv B.delivers) t (advanceLoop X K fuel ids stream consumer key desired tries).run
      (fun r h' => ∀ cursor, r = .ok cursor → cursor.seq = desired.seq ∧ h'.Since n (StoredCursor X K key · cursor)) h := by
  have hfail : ∀ (e : StreamsError) {h' : History Call Res}, Safe S ((cursorLaw X K stream key B).Inv B.delivers) t (.ret (.error e))
      (fun (r : Except StreamsError Cursor) h' => ∀ cursor, r = .ok cursor →
        cursor.seq = desired.seq ∧ h'.Since n (StoredCursor X K key · cursor)) h' :=
    fun e _ => Safe.ret fun _ _ cursor hc => by cases hc
  have hstays : ∀ {h₁ h₂ : History Call Res}, h₁ ≤ h₂ → (cursorLaw X K stream key B).Inv B.delivers h₂ → stream.Points X K h₁.store desired →
      stream.Points X K h₂.store desired := fun hle hI₂ hp => (points_stable desired).store hI₂ hle hp
  induction tries generalizing h with
  | zero => trivial
  | succ tries ih =>
    by_cases hv : ValidPath key
    swap
    · obtain ⟨e, he⟩ := @getWithEtag_invalid K key X.toOutside hv
      unfold advanceLoop
      rw [he]
      exact hfail _
    refine Safe.seqAttempt hI (Keyspace.safe_getWithEtag hS) ?_
    rintro (e | _ | ⟨bytes, etag⟩) h₁ hle₁ hI₁ hgot
    · exact hfail _
    · -- nothing is there: the cursor is created
      refine Safe.seqAttempt hI₁ (Keyspace.safe_create hS cursorLaw_uncounted hI₁ hshort fun _ _ h₂ hle₂ hI₂ => ?_) ?_
      · refine lets_create hI₂.state fun hnone e he => ?_
        rw [pathFrom_key hv] at hnone ⊢
        refine tracked_insert hk hopen hI₂.state (hstays (hle₁.trans hle₂) hI₂ hpoints) ?_ he
        rintro cursor' ⟨o, v, ho, -⟩
        rw [hnone] at ho
        cases ho
      · rintro (e | u) h₂ hle₂ hI₂ hcreated
        · have hlater := hle₁.trans hle₂
          cases e with
          | alreadyExists k => exact ih hI₂ (hn.trans (Hist.now_le hlater)) (hstays hlater hI₂ hpoints)
          | _ => exact hfail _
        · cases hcreated with | landed hi ha => ?_
          refine Safe.ret fun h₃ hr₃ cursor hc => ?_
          cases hc
          exact ⟨rfl, (stored_of_put hv hI₂ (hn.trans ((Hist.now_le hle₁).trans hi)) ha).mono hr₃.le le_rfl⟩
    · -- a cursor is there: it is replaced if it is behind
      cases hgot with | shows hshown => ?_
      refine Safe.seqE hI₁ (safe_currentCursor hS hI₁) (fun e _ _ _ _ cursor hc => by cases hc) fun current h₂ hle₂ hI₂ hread => ?_
      have hlater := hle₁.trans hle₂
      obtain ⟨version, hstored, htag⟩ : ∃ version, h₂.Since n (StoredCursor X K key · current) ∧
          B.tags (inlineBytes version (X.cursor.toVec current)) etag := by
        obtain ⟨i, hi, hi₁, hgood, o, ho, rfl, hshows⟩ := hI₁.good_since hshown
        obtain ⟨current', version, hd, hbytes, hstored⟩ := stored_of_shows hgood ho hshows
        have hsame := hread current rfl
        rw [hbytes, X.cursor.fromSlice_toVec] at hsame
        obtain rfl := Option.some.inj hsame
        have htag := hgood.dense.tagged _ _ ho
        rw [hd] at htag
        exact ⟨version, Hist.Since.mono ⟨i, hn.trans hi, hi₁, hstored⟩ hle₂ le_rfl, htag⟩
      split
      · exact hfail _
      next hbehind =>
      split
      · next hsame =>
        refine Safe.ret fun h₃ hr₃ cursor hc => ?_
        cases hc
        exact ⟨hsame, hstored.mono hr₃.le le_rfl⟩
      refine Safe.seqAttempt hI₂ (Keyspace.safe_compareExchange hS cursorLaw_uncounted hI₂ hshort fun _ h₃ hle₃ hI₃ v => ?_) ?_
      · exact lets_replaceCursor hk hopen hB hv hI₃.state (hstays (hlater.trans hle₃) hI₃ hpoints) ⟨version, htag⟩
          (UInt64.not_lt.1 hbehind)
      · rintro (e | u) h₃ hle₃ hI₃ hreplaced
        · have hlater' := hlater.trans hle₃
          cases e with
          | preconditionFailed => exact ih hI₃ (hn.trans (Hist.now_le hlater')) (hstays hlater' hI₃ hpoints)
          | _ => exact hfail _
        · cases hreplaced with | landed hi ha => ?_
          refine Safe.ret fun h₄ hr₄ cursor hc => ?_
          cases hc
          exact ⟨rfl, (stored_of_put hv hI₃ (hn.trans ((Hist.now_le hlater).trans hi)) ha).mono hr₄.le le_rfl⟩

/-- An advance returns the cursor of its target, which was stored during the call. -/
theorem safe_advanceCursor {target : UInt64} (hk : stream.cursorKey consumer = .ok key) (hopen : Open key) (hB : B.Sound)
    (hshort : ∀ eventId, Grammatical eventId → (X.cursor.toVec ⟨envelopeFormatVersion, stream, target, eventId⟩).length ≤ Keyspace.inlineMax)
    (hS : S.exec = B.delivers) (hI : (cursorLaw X K stream key B).Inv B.delivers h) :
    Safe S ((cursorLaw X K stream key B).Inv B.delivers) t (advanceCursor X K fuel ids stream consumer target).run
      (fun r h' => ∀ cursor, r = .ok cursor → cursor.seq = target ∧ h'.Since h.now (StoredCursor X K key · cursor)) h := by
  unfold advanceCursor
  split
  · exact Safe.ret fun _ _ cursor hc => by cases hc
  next htarget =>
  refine Safe.seqE hI (safe_cursorTarget hS hI) (fun e _ _ _ _ cursor hc => by cases hc) fun eventId h₁ hle₁ hI₁ hfound => ?_
  obtain ⟨hid, hmarks⟩ := hfound eventId rfl
  rw [hk]
  refine safe_advanceLoop hk hopen hB (hshort eventId hid) hS fuel hI₁ (Hist.now_le hle₁) ?_
  refine (points_stable _).since hI₁ (hmarks.imp fun s hs => ?_)
  exact ⟨rfl, rfl, UInt64.pos_iff_ne_zero.2 htarget, .inl hs⟩

/-- A read of the cursor returns one that was stored during the call, or there was none. -/
theorem safe_readCursor (hk : stream.cursorKey consumer = .ok key) (hS : S.exec = B.delivers)
    (hI : (cursorLaw X K stream key B).Inv B.delivers h) :
    Safe S ((cursorLaw X K stream key B).Inv B.delivers) t (readCursor X K fuel stream consumer).run
      (fun r h' => (∀ cursor, r = .ok (some cursor) → h'.Since h.now (StoredCursor X K key · cursor)) ∧
        (r = .ok none → h'.Since h.now fun s => s.lookup (K.root ++ key) = none)) h := by
  unfold readCursor
  rw [hk]
  refine safe_mapErr_bind hI (Keyspace.safe_get hS) (fun e _ _ _ _ => by simp) ?_
  rintro (_ | bytes) h₁ hle₁ hI₁ hgot
  · cases hgot with | absent ha => ?_
    exact Safe.ret fun h₂ hr => ⟨fun cursor hc => (by cases hc), fun _ => ha.mono hr.le le_rfl⟩
  · cases hgot with | shows hshown => ?_
    refine Safe.map hI₁ (safe_decodeCursor _ hS hI₁) ?_
    rintro (e | cursor) h₂ hle₂ hI₂ hread
    · exact ⟨fun cursor hc => (by cases hc), fun hc => (by cases hc)⟩
    · refine ⟨fun cursor' hc => ?_, fun hc => (by cases hc)⟩
      cases hc
      obtain ⟨i, hi, hi₁, hgood, o, ho, hshows⟩ := hI₁.good_since hshown
      obtain ⟨stored, version, hd, hbytes, hstored⟩ := stored_of_shows hgood ho hshows
      have hsame := hread cursor rfl
      rw [hbytes, X.cursor.fromSlice_toVec] at hsame
      obtain rfl := Option.some.inj hsame
      exact Hist.Since.mono ⟨i, hi, hi₁, hstored⟩ hle₂ le_rfl

/-! ### The calls of a run -/

/-- The calls on the log of a stream, and the advances of its cursors. -/
def StreamCall.OnCursors (stream : StreamId) (c : StreamCall) : Prop :=
  c.OnLog stream ∨ ∃ consumer target ids, c = .advanceCursor stream consumer target ids

/-- The call returned a cursor of the consumer. -/
def StreamCall.Returned (consumer : Str) : (c : StreamCall) → c.Res → Cursor → Prop
  | .advanceCursor _ consumer' _ _, res, cursor => consumer' = consumer ∧ res = .ok cursor
  | .readCursor _ consumer', res, cursor => consumer' = consumer ∧ res = .ok (some cursor)
  | _, _, _ => False

/-- The call found no cursor of the consumer. -/
def StreamCall.FoundNone (consumer : Str) : (c : StreamCall) → c.Res → Prop
  | .readCursor _ consumer', res => consumer' = consumer ∧ res = .ok none
  | _, _ => False

/-- The call did not ask for another position than the cursor's. -/
def StreamCall.Wanted (cursor : Cursor) : StreamCall → Prop
  | .advanceCursor _ _ target _ => cursor.seq = target
  | _ => True

/-- What a call has learnt of a cursor when it returns. -/
structure StreamCall.Seen (X : Crates) (K : AtomicKeyspace) (key consumer : Str) (t : ℕ) (h : History Call Res) (c : StreamCall) (res : c.Res) :
    Prop where
  returned : ∀ cursor, c.Returned consumer res cursor → c.Wanted cursor ∧ h.Since t (StoredCursor X K key · cursor)
  none : c.FoundNone consumer res → h.Since t fun s => s.lookup (K.root ++ key) = none

theorem seen_call {c : StreamCall} (hn : stream.value ≠ []) (hk : stream.cursorKey consumer = .ok key) (hopen : Open key) (hB : B.Sound)
    (hshort : ∀ target eventId, Grammatical eventId →
      (X.cursor.toVec ⟨envelopeFormatVersion, stream, target, eventId⟩).length ≤ Keyspace.inlineMax)
    (hS : S.exec = B.delivers) (hI : (cursorLaw X K stream key B).Inv B.delivers h) (ht : n ≤ h.now) (hc : c.OnCursors stream) :
    Safe S ((cursorLaw X K stream key B).Inv B.delivers) t (c.prog X K fuel) (fun res h' => c.Seen X K key consumer n h' res) h := by
  rcases hc with hc | ⟨consumer', target, ids, rfl⟩
  · have hlog := @cursor_onLog X K B stream key consumer _ _ S t fuel h hn hk hopen hS c hc hI
    obtain ⟨hstream, hc⟩ := hc
    cases c with
    | readCursor stream' consumer' =>
      obtain rfl : stream' = stream := hstream
      by_cases hsame : consumer' = consumer
      · rw [hsame]
        refine (safe_readCursor hk hS hI).imp fun res h' _ _ hread => ⟨fun cursor hr => ⟨trivial, ?_⟩, fun hr => ?_⟩
        · exact (hread.1 cursor hr.2).mono le_rfl ht
        · exact (hread.2 hr.2).mono le_rfl ht
      · exact hlog.imp fun _ _ _ _ _ => ⟨fun _ hr => absurd hr.1 hsame, fun hr => absurd hr.1 hsame⟩
    | advanceCursor => exact hc.elim
    | _ => exact hlog.imp fun _ _ _ _ _ => ⟨fun _ hr => hr.elim, fun hr => hr.elim⟩
  · by_cases hsame : consumer' = consumer
    · rw [hsame]
      refine (safe_advanceCursor hk hopen hB (hshort target) hS hI).imp fun res h' _ _ hread => ⟨fun cursor hr => ?_, fun hr => hr.elim⟩
      obtain ⟨hseq, hstored⟩ := hread cursor hr.2
      exact ⟨hseq, hstored.mono le_rfl ht⟩
    · exact (cursor_other hn hk hopen hS hsame).imp fun _ _ _ _ _ => ⟨fun _ hr => absurd hr.1 hsame, fun hr => hr.elim⟩

/-- Cursors move forward, and onto events. Whatever is appended, trimmed, collected and advanced meanwhile: the stored position
of a consumer never decreases; its cursor is of the stream, and its event is there or below a certified floor; a call that
returns a cursor returns one that was stored while it ran, an advance one of its target; and a call that starts after one that
returned a cursor returns none before it, nor finds no cursor. -/
theorem cursors_advance {w : World Store Req Resp {c : StreamCall // c.OnCursors stream} fun c => c.1.Res} (hn : stream.value ≠ [])
    (hk : stream.cursorKey consumer = .ok key) (hopen : Open key) (hB : B.Sound)
    (hshort : ∀ target eventId, Grammatical eventId →
      (X.cursor.toVec ⟨envelopeFormatVersion, stream, target, eventId⟩).length ≤ Keyspace.inlineMax)
    (hw : Reach (streamSystem X K B fuel (StreamCall.OnCursors stream) (stream.Tracked X K key B)) w) :
    (∀ i j, i ≤ j → j ≤ w.hist.now → ∀ cursor, StoredCursor X K key (w.hist.storeAt i) cursor →
      stream.Points X K (w.hist.storeAt i) cursor ∧
        ∃ cursor', StoredCursor X K key (w.hist.storeAt j) cursor' ∧ cursor.seq ≤ cursor'.seq) ∧
    ∀ i t c res cursor, w.hist.Done i t c res → c.1.Returned consumer res cursor →
      c.1.Wanted cursor ∧ (∃ j, t ≤ j ∧ j ≤ i ∧ StoredCursor X K key (w.hist.storeAt j) cursor) ∧
      ∀ i' t' c' res', i ≤ t' → w.hist.Done i' t' c' res' → ¬ c'.1.FoundNone consumer res' ∧
        ∀ cursor', c'.1.Returned consumer res' cursor' → cursor.seq ≤ cursor'.seq := by
  obtain ⟨hI, hdone⟩ := @Law.reach _ _ _ _ _ (cursorLaw X K stream key B) _ _ (fun t c res h => c.1.Seen X K key consumer t h res) w
    (fun _ hs => hs)
    (fun h c hI => seen_call hn hk hopen hB hshort rfl (hI.start (cursorLaw X K stream key B).refl c) (Hist.now_le Hist.le_push) c.2) hw
  have hgoes : ∀ {i j}, i ≤ j → j ≤ w.hist.now → ∀ cursor, StoredCursor X K key (w.hist.storeAt i) cursor →
      ∃ cursor', StoredCursor X K key (w.hist.storeAt j) cursor' ∧ cursor.seq ≤ cursor'.seq := by
    intro i j hij hj
    exact (hI.rel (cursorLaw X K stream key B).refl (cursorLaw X K stream key B).trans (fun _ _ _ _ => id) hij hj).2
  have hseen : ∀ {i t c res cursor}, w.hist.Done i t c res → c.1.Returned consumer res cursor →
      c.1.Wanted cursor ∧ ∃ j, t ≤ j ∧ j ≤ i ∧ StoredCursor X K key (w.hist.storeAt j) cursor := by
    intro i t c res cursor hd hr
    obtain ⟨h₁, hle₁, rfl, hs⟩ := hdone i t c res hd
    obtain ⟨hwanted, j, htj, hj, hstored⟩ := hs.returned cursor hr
    refine ⟨hwanted, j, htj, hj, ?_⟩
    rwa [Hist.storeAt_mono hle₁ hj]
  refine ⟨fun i j hij hj cursor hstored => ⟨?_, hgoes hij hj cursor hstored⟩, fun i t c res cursor hd hr => ?_⟩
  · obtain ⟨o, version, ho, hdata⟩ := hstored
    obtain ⟨cursor', hstored', hpoints⟩ := (hI.stateAt (hij.trans hj)).cursor o ho
    rwa [storedCursor_unique ⟨o, version, ho, hdata⟩ hstored']
  obtain ⟨hwanted, j, htj, hji, hstored⟩ := hseen hd hr
  refine ⟨hwanted, ⟨j, htj, hji, hstored⟩, fun i' t' c' res' hit hd' => ⟨fun hnone => ?_, fun cursor' hr' => ?_⟩⟩
  · -- what was stored is still there when the other call looks
    obtain ⟨h₁, hle₁, -, hs⟩ := hdone i' t' c' res' hd'
    obtain ⟨k, htk, hk', hlook⟩ := hs.none hnone
    rw [← Hist.storeAt_mono hle₁ hk'] at hlook
    obtain ⟨cursor', ⟨o, version, ho, -⟩, -⟩ := hgoes (hji.trans (hit.trans htk)) (hk'.trans (Hist.now_le hle₁)) cursor hstored
    rw [hlook] at ho
    cases ho
  · obtain ⟨-, k, htk, hki, hstored'⟩ := hseen hd' hr'
    obtain ⟨e, he, -⟩ := hd'
    have hnow : k ≤ w.hist.now := hki.trans (Hist.at_lt he).le
    obtain ⟨cursor'', hstored'', hle⟩ := hgoes (hji.trans (hit.trans htk)) hnow cursor hstored
    rwa [storedCursor_unique hstored' hstored'']

end

/-! ### The length of a cursor -/

section
open Json

theorem utf8_length_le (s : Str) : (utf8 s).length ≤ 4 * s.length := by
  induction s with
  | nil => exact le_rfl
  | cons c s ih =>
    have hc : (String.utf8EncodeChar c).length ≤ 4 := by
      rw [String.length_utf8EncodeChar]
      exact Char.utf8Size_le_four c
    have hs : (s.flatMap String.utf8EncodeChar).length ≤ 4 * s.length := ih
    rw [utf8, List.flatMap_cons, List.length_append, List.length_cons]
    omega

/-- An escape is at most six characters. -/
theorem str_write_length_le (s : Str) : (Piece.str.write s).length ≤ 6 * s.length + 2 := by
  have hescape : ∀ c, (escapeChar c).length ≤ 6 := by
    intro c
    unfold escapeChar escapeControl
    split
    · simp
    split
    · repeat' split
      all_goals simp
    · simp
  have hsum : (s.flatMap escapeChar).length ≤ 6 * s.length := by
    induction s with
    | nil => exact le_rfl
    | cons c s ih =>
      have := hescape c
      rw [List.flatMap_cons, List.length_append, List.length_cons]
      omega
  show ('"' :: (s.flatMap escapeChar ++ ['"'])).length ≤ _
  rw [List.length_cons, List.length_append, List.length_singleton]
  omega

theorem writeNat_length_le {n : ℕ} (h : n < 2 ^ 64) : (writeNat n).length ≤ 20 :=
  Nat.toDigits_length 10 n 20 (by omega) (by omega)

theorem Grammatical.length_le {value : Str} (h : Grammatical value) : value.length ≤ 255 := by
  refine le_trans ?_ h.short
  unfold Keyspace.byteLen
  clear h
  induction value with
  | nil => exact le_rfl
  | cons c value ih =>
    have := c.utf8Size_pos
    rw [List.map_cons, List.sum_cons, List.length_cons]
    omega

/-- A cursor in JSON is short. -/
theorem cursor_toVec_length_le (cursor : Cursor) :
    (Serde.crates.cursor.toVec cursor).length ≤ 4 * (6 * (cursor.streamId.value.length + cursor.eventId.length) + 128) := by
  refine (utf8_length_le _).trans (Nat.mul_le_mul_left 4 ?_)
  have hversion := writeNat_length_le (cursor.formatVersion.toNat_lt.trans (by decide))
  have hseq := writeNat_length_le cursor.seq.toNat_lt
  have hstream := str_write_length_le cursor.streamId.value
  have hevent := str_write_length_le cursor.eventId
  have hwrite : Serde.cursor.write cursor = ("\x7b\"format_version\":".toList ++ (writeNat cursor.formatVersion.toNat ++ [','])) ++
      (("\"stream_id\":".toList ++ Piece.str.write cursor.streamId.value) ++ ((",\"seq\":".toList ++ (writeNat cursor.seq.toNat ++ [','])) ++
        (("\"event_id\":".toList ++ Piece.str.write cursor.eventId) ++ ['}']))) := rfl
  have h₁ : "\x7b\"format_version\":".toList.length = 18 := by decide
  have h₂ : "\"stream_id\":".toList.length = 12 := by decide
  have h₃ : ",\"seq\":".toList.length = 7 := by decide
  have h₄ : "\"event_id\":".toList.length = 11 := by decide
  rw [hwrite]
  simp only [List.length_append, List.length_singleton, h₁, h₂, h₃, h₄]
  omega

end

/-! ### A consumer of two events -/

/-- The calls of a run on the one-letter stream: it gets two events, and the cursor goes to both and is sent back. -/
def letterCursorCalls : List {c : StreamCall // c.OnCursors letterStream} :=
  let event (n : UInt8) : StreamCall := .append letterStream ⟨"x".toList⟩ ⟨['e', Char.ofNat n.toNat]⟩ [n] fun _ => []
  let advance (target : UInt64) : {c : StreamCall // c.OnCursors letterStream} :=
    ⟨.advanceCursor letterStream "c".toList target fun _ => [], .inr ⟨_, _, _, rfl⟩⟩
  [⟨.createStreamWithId letterStream [] fun _ => [], .inl ⟨rfl, trivial⟩⟩, ⟨event 49, .inl ⟨rfl, trivial⟩⟩,
    ⟨event 50, .inl ⟨rfl, trivial⟩⟩, advance 1, advance 2, advance 1, ⟨.readCursor letterStream "c".toList, .inl ⟨rfl, trivial⟩⟩]

def letterCursors : World Store Req Resp {c : StreamCall // c.OnCursors letterStream} fun c => c.1.Res :=
  let S := streamSystem Serde.crates Keyspace.letterSpace .honest 9 (StreamCall.OnCursors letterStream)
    (letterStream.Tracked Serde.crates Keyspace.letterSpace "a/cursors/c".toList .honest)
  letterCursorCalls.foldl (fun w c => w.alone S.prog (Store.serve contentTag) c 20) ⟨.empty ∅, fun _ => none⟩

/-- The cursor that is returned at a step. -/
def cursorAt {stream : StreamId} (h : History {c : StreamCall // c.OnCursors stream} fun c => c.1.Res) (i : ℕ) :
    Option (Str × Cursor) :=
  match h.steps[i]? with
  | some ⟨.done _ ⟨.advanceCursor _ consumer _ _, _⟩ (.ok cursor), _, _⟩ => some (consumer, cursor)
  | some ⟨.done _ ⟨.readCursor _ consumer, _⟩ (.ok (some cursor)), _, _⟩ => some (consumer, cursor)
  | _ => none

theorem returned_of_cursorAt {stream : StreamId} {h : History {c : StreamCall // c.OnCursors stream} fun c => c.1.Res} {i : ℕ}
    {consumer : Str} {cursor : Cursor} (hr : cursorAt h i = some (consumer, cursor)) :
    ∃ t c res, h.Done i t c res ∧ c.1.Returned consumer res cursor := by
  unfold cursorAt at hr
  split at hr
  · next t _ consumer' _ _ _ r _ _ he =>
    cases hr
    exact ⟨t, _, _, ⟨_, he, rfl⟩, rfl, rfl⟩
  · next t _ consumer' _ r _ _ he =>
    cases hr
    exact ⟨t, _, _, ⟨_, he, rfl⟩, rfl, rfl⟩
  · cases hr

theorem letterCursors_run : letterCursors.hist.now = 63 ∧
    cursorAt letterCursors.hist 44 = some ("c".toList, ⟨envelopeFormatVersion, letterStream, 1, "e1".toList⟩) ∧
    cursorAt letterCursors.hist 53 = some ("c".toList, ⟨envelopeFormatVersion, letterStream, 2, "e2".toList⟩) ∧
    cursorAt letterCursors.hist 62 = some ("c".toList, ⟨envelopeFormatVersion, letterStream, 2, "e2".toList⟩) := by decide +kernel

theorem reach_letterCursors : Reach (streamSystem Serde.crates Keyspace.letterSpace .honest 9 (StreamCall.OnCursors letterStream)
    (letterStream.Tracked Serde.crates Keyspace.letterSpace "a/cursors/c".toList .honest)) letterCursors := by
  have hempty : letterStream.Tracked Serde.crates Keyspace.letterSpace "a/cursors/c".toList .honest ∅ :=
    ⟨dense_empty, rfl, fun o ho => by cases ho⟩
  unfold letterCursors
  generalize letterCursorCalls = calls
  have hinit : Reach (streamSystem Serde.crates Keyspace.letterSpace .honest 9 (StreamCall.OnCursors letterStream)
      (letterStream.Tracked Serde.crates Keyspace.letterSpace "a/cursors/c".toList .honest)) ⟨.empty ∅, fun _ => none⟩ := .init hempty
  generalize (⟨.empty ∅, fun _ => none⟩ : World Store Req Resp {c : StreamCall // c.OnCursors letterStream} fun c => c.1.Res) = w at hinit ⊢
  induction calls generalizing w with
  | nil => exact hinit
  | cons c calls ih => exact ih _ (hinit.alone Backend.delivers_honest c 20)

/-- The cursor went to both events; what is stored in the end is at the second or behind it. -/
theorem cursors_advance_letter : cursorAt letterCursors.hist 44 ≠ none ∧ cursorAt letterCursors.hist 53 ≠ none ∧
    ∃ cursor, StoredCursor Serde.crates Keyspace.letterSpace "a/cursors/c".toList letterCursors.hist.store cursor ∧
      letterStream.Points Serde.crates Keyspace.letterSpace letterCursors.hist.store cursor ∧ 2 ≤ cursor.seq := by
  obtain ⟨hnow, hfirst, hsecond, -⟩ := letterCursors_run
  refine ⟨by rw [hfirst]; exact Option.some_ne_none _, by rw [hsecond]; exact Option.some_ne_none _, ?_⟩
  have hshort : ∀ target eventId, Grammatical eventId →
      (Serde.crates.cursor.toVec ⟨envelopeFormatVersion, letterStream, target, eventId⟩).length ≤ Keyspace.inlineMax := by
    intro target eventId hid
    refine (cursor_toVec_length_le _).trans ?_
    have hlen := hid.length_le
    have hmax : Keyspace.inlineMax = 67108864 := rfl
    have hone : letterStream.value.length = 1 := rfl
    dsimp only
    omega
  obtain ⟨hstored, hreturned⟩ := @cursors_advance Serde.crates Keyspace.letterSpace .honest letterStream "a/cursors/c".toList "c".toList 9
    letterCursors (by decide) rfl rfl Backend.honest_sound hshort reach_letterCursors
  obtain ⟨t, c, res, hd, hr⟩ := returned_of_cursorAt hsecond
  obtain ⟨-, ⟨j, -, hj, hat⟩, -⟩ := hreturned 53 t c res _ hd hr
  obtain ⟨-, cursor, hlast, hle⟩ := hstored j letterCursors.hist.now (by omega) le_rfl _ hat
  obtain ⟨hpoints, -⟩ := hstored _ _ le_rfl le_rfl cursor hlast
  rw [Hist.storeAt_now] at hlast hpoints
  exact ⟨cursor, hlast, hpoints, hle⟩

end YeetzS3.Streams
