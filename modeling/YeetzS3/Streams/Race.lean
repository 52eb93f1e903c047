import YeetzS3.Keyspace.Codec
import YeetzS3.Streams.Density
import YeetzS3.Streams.Envelopes
import YeetzS3.Streams.Replay

/-!
# Racing retries

Several appends of one logical event, each of which took its snapshot of the log before any of them put it there, walk
towards the end of the log from their own guesses. A guess is `Clear`: the front has reached it, and the event is not below
it. A log without holes and trims has no place below the front to put the event a second time.
-/

namespace YeetzS3.Streams

open Conc
open Keyspace (AtomicKeyspace ValidPath inlineBytes)

/-- An event without its place. -/
structure LogicalEvent where
  schemaId : SchemaId
  id : StableEventId
  payload : Bytes

section
variable (X : Crates) (K : AtomicKeyspace) (stream : StreamId) (event : LogicalEvent)

/-- Position `q` holds `landed`, stored inline. -/
def StreamId.Holds (s : Store) (q : UInt64) (landed : Envelope) : Prop :=
  ∃ o, s.lookup (K.root ++ stream.logKey q) = some o ∧ o.data = inlineBytes 0 landed.encoded ∧
    Envelope.decodeAndVerify X stream q landed.encoded = some landed

/-- An event with the stable id is at `q`. -/
def StreamId.Carries (s : Store) (q : UInt64) : Prop := ∃ landed, stream.Holds X K s q landed ∧ landed.stableEventId = event.id

/-- A log without holes and trims, whose events are inline and carry the stable id at most once. -/
structure StreamId.Racing (B : Backend) (s : Store) : Prop where
  dense : stream.Dense K B s
  untrimmed : ∀ f, ¬ K.Certified s stream.certPrefix f
  inline : ∀ q, 0 < q → ∀ o, s.lookup (K.root ++ stream.logKey q) = some o → ∃ bytes, o.data = inlineBytes 0 bytes
  once : ∀ p q, 0 < p → 0 < q → stream.Carries X K event s p → stream.Carries X K event s q → p = q

/-- The front has reached `g`, and the event is not below. -/
def StreamId.Clear (s : Store) (g : UInt64) : Prop :=
  stream.Reached K s g.toNat ∧ ∀ q, 0 < q → stream.Carries X K event s q → g ≤ q

/-- The law of the race: the log stays one, and goes on as a dense log. -/
def raceLaw (B : Backend) : Law Store where
  Good s := stream.Racing X K event B s
  Goes := (densityLaw B K stream).Goes
  refl := (densityLaw B K stream).refl
  trans := (densityLaw B K stream).trans

end

section
variable {X : Crates} {K : AtomicKeyspace} {B : Backend} {stream : StreamId} {event : LogicalEvent} {s s' : Store} {o : Object}
  {p q g f : UInt64} {n : ℕ} {bytes : Bytes} {landed landed' : Envelope} {d : Bytes} {e : Etag}

/-! ### What a log of a race holds -/

theorem inlineBytes_injective {bytes bytes' : Bytes} (h : inlineBytes 0 bytes = inlineBytes 0 bytes') : bytes = bytes' := by
  have hread := Keyspace.ValueEnvelope.decode_encode [] ⟨0, 0, bytes⟩
  have hread' := Keyspace.ValueEnvelope.decode_encode [] ⟨0, 0, bytes'⟩
  rw [show Keyspace.ValueEnvelope.encode ⟨0, 0, bytes⟩ = inlineBytes 0 bytes from rfl, h] at hread
  cases hread.symm.trans hread'
  rfl

theorem holds_of_bytes (ho : s.lookup (K.root ++ stream.logKey q) = some o) (hd : o.data = inlineBytes 0 bytes)
    (hv : Envelope.decodeAndVerify X stream q bytes = some landed) : stream.Holds X K s q landed := by
  obtain rfl := (Envelope.decodeAndVerify_bound hv).encoded
  exact ⟨o, ho, hd, hv⟩

theorem holds_unique (h : stream.Holds X K s q landed) (h' : stream.Holds X K s q landed') : landed = landed' := by
  obtain ⟨o, ho, hd, hv⟩ := h
  obtain ⟨o', ho', hd', hv'⟩ := h'
  obtain rfl := Option.some.inj (ho.symm.trans ho')
  rw [inlineBytes_injective (hd.symm.trans hd')] at hv
  exact Option.some.inj (hv.symm.trans hv')

theorem StreamId.Holds.present (h : stream.Holds X K s q landed) : stream.Present K s q := by
  obtain ⟨o, ho, -⟩ := h
  simp [StreamId.Present, ho]

/-- What was read of an inline event is what it holds. -/
theorem StreamId.Racing.holds (hs : stream.Racing X K event B s) (hq : 0 < q) (hr : stream.ReadsAs X K s q bytes)
    (hv : Envelope.decodeAndVerify X stream q bytes = some landed) : stream.Holds X K s q landed := by
  obtain ⟨o, ho, c, hc, hinl⟩ := hr
  obtain ⟨bytes', hd⟩ := hs.inline q hq o ho
  have hread : Keyspace.ControlEnvelope.decode X.toOutside (stream.logKey q) o.data = .ok (.inline ⟨0, 0, bytes'⟩) :=
    Keyspace.ControlEnvelope.decode_inline.2 hd
  cases hc.symm.trans hread
  have hbytes : bytes' = bytes := hinl _ rfl
  subst hbytes
  exact holds_of_bytes ho hd hv

theorem StreamId.Racing.retained (hs : stream.Racing X K event B s) (hq : 0 < q) : stream.Retained K s q :=
  ⟨hq, fun f hf => absurd hf (hs.untrimmed f)⟩

/-- What the front has passed is there. -/
theorem StreamId.Racing.present (hs : stream.Racing X K event B s) (hq : 0 < q) (hr : stream.Reached K s n) (hlt : q.toNat < n) :
    stream.Present K s q := by
  obtain ⟨m, hm, hfront⟩ := hr
  exact hfront.dense q (hs.retained hq) (by omega)

/-! ### What is kept -/

theorem raceLaw_inv {Call : Type} {Res : Call → Type} {h : History Call Res} (hI : (raceLaw X K stream event B).Inv B.delivers h) :
    (densityLaw B K stream).Inv B.delivers h := hI.imp (fun _ hs => hs.dense) fun _ _ => id

theorem race_stable {P : Store → Prop} (hP : (densityLaw B K stream).Stable P) : (raceLaw X K stream event B).Stable P :=
  fun _ _ hs hs' hg h => hP _ _ hs.dense hs'.dense hg h

theorem holds_stable (hq : 0 < q) (landed : Envelope) :
    (raceLaw X K stream event B).Stable fun s => stream.Holds X K s q landed := by
  rintro s s' - hs' ⟨-, -, hkept⟩ ⟨o, ho, hd, hv⟩
  exact ⟨o, hkept q (hs'.retained hq) o ho, hd, hv⟩

/-- An event that was not there before is not below the front of that time. -/
theorem late (hs : stream.Racing X K event B s) (hs' : stream.Racing X K event B s') (hg : (densityLaw B K stream).Goes s s')
    (hq : 0 < q) (hr : stream.Reached K s n) (hc : stream.Carries X K event s' q) (hn : ¬ stream.Carries X K event s q) :
    n ≤ q.toNat := by
  by_contra hlt
  obtain ⟨o, ho⟩ := Option.ne_none_iff_exists'.1 (hs.present hq hr (by omega))
  obtain ⟨landed, ⟨o', ho', hd, hv⟩, hid⟩ := hc
  have hkept := hg.2.2 q (hs'.retained hq) o ho
  obtain rfl := Option.some.inj (ho'.symm.trans hkept)
  exact hn ⟨landed, ⟨o', ho, hd, hv⟩, hid⟩

theorem clear_stable (g : UInt64) : (raceLaw X K stream event B).Stable fun s => stream.Clear X K event s g := by
  rintro s s' hs hs' hg ⟨hr, hc⟩
  refine ⟨race_stable (reached_stable g.toNat) s s' hs hs' hg hr, fun q hq hq' => ?_⟩
  by_cases hb : stream.Carries X K event s q
  · exact hc q hq hb
  · exact UInt64.le_iff_toNat_le.2 (late hs hs' hg hq hr hq' hb)

/-- A position the event is found not to be at. -/
theorem StreamId.Clear.next (hs : stream.Clear X K event s g) (hmax : g ≠ maxSeq) (hr : stream.Reached K s (g.toNat + 1))
    (hn : ¬ stream.Carries X K event s g) : stream.Clear X K event s (g + 1) := by
  refine ⟨by rwa [toNat_succ hmax], fun q hq hc => ?_⟩
  have hle := UInt64.le_iff_toNat_le.1 (hs.2 q hq hc)
  have hne : g.toNat ≠ q.toNat := fun he => hn (by rwa [UInt64.toNat_inj.1 he])
  rw [UInt64.le_iff_toNat_le, toNat_succ hmax]
  omega

/-! ### Steps -/

theorem raceLaw_over : LawOver B (stream.Region K) (raceLaw X K stream event B) where
  tagged _ hs := hs.dense.tagged
  frame s s' hs ht ha := by
    obtain ⟨hgood, hgoes⟩ := densityLaw_over.frame s s' hs.dense ht ha
    have hlook : ∀ q, 0 < q → AList.lookup (K.root ++ stream.logKey q) s' = s.lookup (K.root ++ stream.logKey q) :=
      fun q hq => ha _ ⟨q, .inl ⟨hq, rfl⟩⟩
    have hcarry : ∀ q, 0 < q → stream.Carries X K event s' q → stream.Carries X K event s q := by
      rintro q hq ⟨landed, ⟨o, ho, hd, hv⟩, hid⟩
      rw [hlook q hq] at ho
      exact ⟨landed, ⟨o, ho, hd, hv⟩, hid⟩
    refine ⟨⟨hgood, fun f hf => hs.untrimmed f ((agree_certified ha).1 hf), fun q hq o ho => ?_, fun p q hp hq hp' hq' => ?_⟩, hgoes⟩
    · rw [hlook q hq] at ho
      exact hs.inline q hq o ho
    · exact hs.once p q hp hq (hcarry p hp hp') (hcarry q hq hq')

theorem raceLaw_log : LogLaw X K B stream (raceLaw X K stream event B) where
  uncounted q _ hs := hs.dense.fresh q
  tail _ hs := letsPublish_tail raceLaw_over hs

/-- An event that lands where the front has come to; if it is the one, at a clear position. -/
theorem race_insert_event (hp : 0 < p) (hs : stream.Racing X K event B s) (hr : stream.Reached K s p.toNat)
    (hnone : s.lookup (K.root ++ stream.logKey p) = none) (he : B.tags (inlineBytes 0 bytes) e)
    (hclear : ∀ landed, Envelope.decodeAndVerify X stream p bytes = some landed → landed.stableEventId = event.id →
      stream.Clear X K event s p) :
    (raceLaw X K stream event B).Good (s.insert (K.root ++ stream.logKey p) ⟨inlineBytes 0 bytes, e⟩) ∧
      (raceLaw X K stream event B).Goes s (s.insert (K.root ++ stream.logKey p) ⟨inlineBytes 0 bytes, e⟩) := by
  obtain ⟨hgood, hgoes⟩ := density_insert_event hp hs.dense hr hnone he
  have hother : ∀ q, q ≠ p → AList.lookup (K.root ++ stream.logKey q) (s.insert (K.root ++ stream.logKey p) ⟨inlineBytes 0 bytes, e⟩) =
      s.lookup (K.root ++ stream.logKey q) := fun q hqp => lookup_insert_key fun heq => hqp (StreamId.logKey_injective heq)
  -- what carries the id now did before, or is what landed at a clear position
  have hcarry : ∀ q, stream.Carries X K event (s.insert (K.root ++ stream.logKey p) ⟨inlineBytes 0 bytes, e⟩) q →
      stream.Carries X K event s q ∨ q = p ∧ stream.Clear X K event s p := by
    rintro q ⟨landed, ⟨o, ho, hd, hv⟩, hid⟩
    by_cases hqp : q = p
    · subst hqp
      rw [AList.lookup_insert] at ho
      obtain rfl := Option.some.inj ho
      rw [← inlineBytes_injective hd] at hv
      exact .inr ⟨rfl, hclear landed hv hid⟩
    · rw [hother q hqp] at ho
      exact .inl ⟨landed, ⟨o, ho, hd, hv⟩, hid⟩
  -- what carried it before is not there: it would be behind the clear position, and below the front
  have hfirst : ∀ q, 0 < q → stream.Carries X K event s q → stream.Clear X K event s p → False := by
    intro q hq hc hclear
    have hle := UInt64.le_iff_toNat_le.1 (hclear.2 q hq hc)
    obtain ⟨m, hfront⟩ := hs.dense.front
    obtain ⟨landed, hholds, -⟩ := hc
    have hlt := hfront.below q hq hholds.present
    exact hfront.dense p (hs.retained hp) (by omega) hnone
  refine ⟨⟨hgood, fun f hf => hs.untrimmed f (certified_insert_event.1 hf), fun q hq o ho => ?_, fun q q' hq hq' hc hc' => ?_⟩, hgoes⟩
  · by_cases hqp : q = p
    · subst hqp
      rw [AList.lookup_insert] at ho
      obtain rfl := Option.some.inj ho
      exact ⟨bytes, rfl⟩
    · rw [hother q hqp] at ho
      exact hs.inline q hq o ho
  · rcases hcarry q hc with hb | ⟨rfl, hclear⟩
    · rcases hcarry q' hc' with hb' | ⟨rfl, hclear⟩
      · exact hs.once q q' hq hq' hb hb'
      · exact (hfirst q hq hb hclear).elim
    · rcases hcarry q' hc' with hb' | ⟨rfl, -⟩
      · exact (hfirst q' hq' hb' hclear).elim
      · rfl

/-! ### Calls -/

variable {Call : Type} {Res : Call → Type} {S : System Store Req Resp Call Res} {t fuel : ℕ} {h : History Call Res}
  {schemaId : SchemaId} {stableEventId : StableEventId} {payload : Bytes} {ids : ℕ → Bytes} {envelope : Envelope}
  {receipt : AppendReceipt}

theorem race_certified_stable (f : UInt64) : (raceLaw X K stream event B).Stable fun s => K.Certified s stream.certPrefix f :=
  race_stable (certified_stable f)

/-- An envelope that reads back carries the id it was encoded with. -/
theorem id_of_encode (he : Envelope.encode X stream q schemaId stableEventId payload = .ok envelope)
    (hv : Envelope.decodeAndVerify X stream q envelope.encoded = some landed) : landed.stableEventId = stableEventId := by
  obtain rfl := Envelope.encode_ok he
  obtain ⟨wire, payload', hw, -, rfl⟩ := Envelope.decodeAndVerify_eq_some.1 hv
  cases (X.envelope.fromSlice_toVec _).symm.trans hw
  rfl

/-- What an append of another event knows of the position it tries next. -/
theorem race_guessed_other (hne : stableEventId ≠ event.id) :
    Guessed X K B stream schemaId stableEventId payload n (raceLaw X K stream event B)
      fun g (h : History Call Res) => 0 < g ∧ stream.Reached K h.store g.toNat where
  mono g h h' hh hI' hat := ⟨hat.1, (race_stable (reached_stable g.toNat)).store hI' hh hat.2⟩
  lets g h hI hat hv envelope he := by
    refine lets_create hI.state fun hnone e htag => ?_
    rw [pathFrom_key hv] at hnone ⊢
    exact race_insert_event hat.1 hI.state hat.2 hnone htag fun landed hread hid => absurd ((id_of_encode he hread).symm.trans hid) hne
  next g h hI hat hmax hs := by
    rw [toNat_succ hmax]
    refine ⟨?_, reached_of_seen (raceLaw_inv hI) hat.1 (hs.imp fun s hother => ?_)⟩
    · rw [UInt64.lt_iff_toNat_lt, toNat_succ hmax]
      exact Nat.succ_pos _
    · obtain ⟨_, _, hread, -⟩ := hother
      exact hread.present

/-- What an append of the event knows of the position it tries next. -/
theorem race_guessed : Guessed X K B stream event.schemaId event.id event.payload n (raceLaw X K stream event B)
    fun g (h : History Call Res) => 0 < g ∧ stream.Clear X K event h.store g where
  mono g h h' hh hI' hat := ⟨hat.1, (clear_stable g).store hI' hh hat.2⟩
  lets g h hI hat hv envelope _ := by
    refine lets_create hI.state fun hnone e htag => ?_
    rw [pathFrom_key hv] at hnone ⊢
    exact race_insert_event hat.1 hI.state hat.2.1 hnone htag fun _ _ _ => hat.2
  next g h hI hat hmax hs := by
    have hother : ∃ landed, stream.Holds X K h.store g landed ∧ landed.stableEventId ≠ event.id := by
      obtain ⟨i, -, hi, hgood, bytes, landed, hread, hv, hid⟩ := hI.good_since hs
      have hholds := (holds_stable hat.1 landed).storeAt hI hi le_rfl (hgood.holds hat.1 hread hv)
      rw [Hist.storeAt_now] at hholds
      exact ⟨landed, hholds, hid⟩
    obtain ⟨landed, hholds, hid⟩ := hother
    refine ⟨?_, hat.2.next hmax (reached_of_seen (raceLaw_inv hI) hat.1 (hs.imp fun s hother => ?_)) ?_⟩
    · rw [UInt64.lt_iff_toNat_lt, toNat_succ hmax]
      exact Nat.succ_pos _
    · obtain ⟨_, _, hread, -⟩ := hother
      exact hread.present
    · rintro ⟨landed', hholds', hid'⟩
      rw [holds_unique hholds hholds'] at hid
      exact hid hid'

theorem race_append (hne : stableEventId ≠ event.id) (hS : S.exec = B.delivers) (hI : (raceLaw X K stream event B).Inv B.delivers h) :
    Safe S ((raceLaw X K stream event B).Inv B.delivers) t (append X K fuel ids stream schemaId stableEventId payload).run
      (fun _ _ => True) h := by
  refine (safe_append hS raceLaw_log race_certified_stable (race_guessed_other hne) hI ?_).imp fun _ _ _ _ _ => trivial
  intro h₁ listMax hintSeq floor hle hI₁ hsnap hmax
  obtain ⟨hlist, hhint, h₂, answer, hle₂, hle₂', hfloor, htold⟩ := hsnap
  exact reached_of_snapshot (raceLaw_inv hI₁) ⟨hlist, hhint, h₂, answer, hle₂, hle₂', hfloor, htold⟩ hmax

theorem race_appendExpected {predecessor : EventRef} (hp : predecessor.streamId = stream) (hne : stableEventId ≠ event.id)
    (hS : S.exec = B.delivers) (hI : (raceLaw X K stream event B).Inv B.delivers h) :
    Safe S ((raceLaw X K stream event B).Inv B.delivers) t
      (appendExpected X K fuel ids predecessor schemaId stableEventId payload).run (fun _ _ => True) h := by
  subst hp
  refine safe_appendExpected hS (fun q _ hs => hs.dense.fresh q) hI fun h₁ targetSeq envelope hle hI₁ hpred hadmit hv => ?_
  obtain ⟨hsucc, henc⟩ := admit_ok hadmit
  have htarget : targetSeq.toNat = predecessor.seq.toNat + 1 := toNat_of_checkedSucc hsucc
  have hreached : predecessor.streamId.Reached K h₁.store (predecessor.seq.toNat + 1) :=
    reached_of_witnessed (raceLaw_inv hI₁) (hpred.imp_right fun hs => ⟨predecessor.seq, UInt64.le_refl _, hs⟩)
  refine lets_create hI₁.state fun hnone e he => ?_
  rw [pathFrom_key hv] at hnone ⊢
  refine race_insert_event ?_ hI₁.state ?_ hnone he fun landed hread hid => absurd ((id_of_encode henc hread).symm.trans hid) hne
  · rw [UInt64.lt_iff_toNat_lt, htarget]
    exact Nat.succ_pos _
  · rwa [htarget]

/-- The names of the stream and of the event are such that their constructors let them through. -/
structure LogicalEvent.Named (event : LogicalEvent) (stream : StreamId) : Prop where
  stream : Grammatical stream.value
  schemaId : Grammatical event.schemaId.value
  id : Grammatical event.id.value

/-- The receipt is that of the event, which is there. -/
def StreamId.Receipted (X : Crates) (K : AtomicKeyspace) (stream : StreamId) (event : LogicalEvent) (s : Store)
    (receipt : AppendReceipt) : Prop :=
  ∃ seq landed, 0 < seq ∧ receipt = receiptAt stream event.id seq landed.payloadSha256 ∧ stream.Holds X K s seq landed ∧
    landed.stableEventId = event.id ∧ landed.schemaId = event.schemaId ∧ landed.payload = event.payload

theorem receipted_stable (receipt : AppendReceipt) :
    (raceLaw X K stream event B).Stable fun s => stream.Receipted X K event s receipt := by
  rintro s s' hs hs' hg ⟨seq, landed, hpos, hreceipt, hholds, hevent⟩
  exact ⟨seq, landed, hpos, hreceipt, holds_stable hpos landed s s' hs hs' hg hholds, hevent⟩

/-- There is one receipt of the event. -/
theorem receipted_unique {receipt' : AppendReceipt} (hs : stream.Racing X K event B s) (hr : stream.Receipted X K event s receipt)
    (hr' : stream.Receipted X K event s receipt') : receipt = receipt' := by
  obtain ⟨seq, landed, hpos, rfl, hholds, hid, -⟩ := hr
  obtain ⟨seq', landed', hpos', rfl, hholds', hid', -⟩ := hr'
  obtain rfl := hs.once seq seq' hpos hpos' ⟨landed, hholds, hid⟩ ⟨landed', hholds', hid'⟩
  rw [holds_unique hholds hholds']

theorem validPath_logKey (hg : Grammatical stream.value) : ValidPath (stream.logKey q) := by
  have hkey : stream.logKey q = stream.value ++ '/' :: ("log".toList ++ '/' :: seqComponent q) := by
    unfold StreamId.logKey StreamId.logPrefix
    rw [show "/log/".toList = '/' :: ("log".toList ++ ['/']) by decide]
    generalize "log".toList = l
    simp
  rw [hkey, Keyspace.validPath_append, Keyspace.validPath_append]
  exact ⟨List.all_eq_true.2 hg.segments, by decide, validPath_seqComponent q⟩

/-- What an append of the event returns is its receipt. -/
theorem receipted_of_appended (hg : event.Named stream) (hI : (raceLaw X K stream event B).Inv B.delivers h)
    (ha : Appended X K stream event.schemaId event.id event.payload n
      (fun g (h : History Call Res) => 0 < g ∧ stream.Clear X K event h.store g) t h receipt) :
    stream.Receipted X K event h.store receipt := by
  have hencoded : ∀ {seq envelope}, Envelope.encode X stream seq event.schemaId event.id event.payload = .ok envelope →
      Envelope.decodeAndVerify X stream seq envelope.encoded = some envelope ∧ envelope.stableEventId = event.id ∧
        envelope.schemaId = event.schemaId ∧ envelope.payload = event.payload := by
    intro seq envelope he
    have hread := Envelope.decodeAndVerify_encode hg.stream hg.schemaId hg.id he
    obtain rfl := Envelope.encode_ok he
    exact ⟨hread, rfl, rfl, rfl⟩
  cases ha with
  | @found seq landed hpos hs =>
    obtain ⟨i, -, hi, hgood, bytes, hread, hv, hevent⟩ := hI.good_since hs
    have hholds := (holds_stable hpos landed).storeAt hI hi le_rfl (hgood.holds hpos hread hv)
    rw [Hist.storeAt_now] at hholds
    exact ⟨seq, landed, hpos, rfl, hholds, hevent⟩
  | @created seq envelope i y h₁ he hat h₁h hi hn ha =>
    obtain ⟨hread, hevent⟩ := hencoded he
    obtain ⟨-, e, -, hstore, -⟩ := Backend.delivers_put_ok (hI.exec ha)
    rw [pathFrom_key (validPath_logKey hg.stream)] at hstore
    -- the put left the envelope there
    have hholds : stream.Holds X K (h.storeAt (i + 1)) seq envelope := by
      rw [hstore]
      exact ⟨_, AList.lookup_insert .., rfl, hread⟩
    have hholds := (holds_stable hat.1 envelope).storeAt hI ha.lt le_rfl hholds
    rw [Hist.storeAt_now] at hholds
    exact ⟨seq, envelope, hat.1, rfl, hholds, hevent⟩
  | @converged seq envelope i h₁ he hat h₁h hi hn ha hs =>
    obtain ⟨hread, hevent⟩ := hencoded he
    obtain ⟨j, -, hj, hgood, hbytes⟩ := hI.good_since hs
    have hholds := (holds_stable hat.1 envelope).storeAt hI hj le_rfl (hgood.holds hat.1 hbytes hread)
    rw [Hist.storeAt_now] at hholds
    exact ⟨seq, envelope, hat.1, rfl, hholds, hevent⟩

end

/-! ### The race -/

/-- The calls of a race: appends of the event, cut into their snapshot and the rest, and what others do on the stream. -/
inductive RaceCall where
  | look
  | land (listMax hintSeq : UInt64) (ids : ℕ → Bytes)
  | other (c : StreamCall)

namespace RaceCall

/-- What a call returns. -/
abbrev Res : RaceCall → Type
  | look => Except StreamsError (UInt64 × UInt64)
  | land _ _ _ => Except StreamsError AppendReceipt
  | other c => c.Res

/-- The program of a call. -/
def prog (X : Crates) (K : AtomicKeyspace) (fuel : ℕ) (stream : StreamId) (event : LogicalEvent) : (c : RaceCall) → Prog Req Resp c.Res
  | look => (appendLook X K fuel stream).run
  | land listMax hintSeq ids =>
    (appendLand X K fuel ids stream event.schemaId event.id event.payload listMax hintSeq).run
  | other c => c.prog X K fuel

/-- The others do not append the event, and trim nothing. -/
def Fair (stream : StreamId) (event : LogicalEvent) : RaceCall → Prop
  | look | land _ _ _ => True
  | other c => c.OnLog stream ∧ match c with
    | .append _ _ stableEventId _ _ | .appendExpected _ _ stableEventId _ _ => stableEventId ≠ event.id
    | .trim _ _ | .gc _ => False
    | _ => True

end RaceCall

/-- Any number of clients that race. -/
def raceSystem (X : Crates) (K : AtomicKeyspace) (B : Backend) (fuel : ℕ) (stream : StreamId) (event : LogicalEvent) :
    System Store Req Resp {c : RaceCall // c.Fair stream event} fun c => c.1.Res where
  prog c := c.1.prog X K fuel stream event
  exec := B.delivers
  init := stream.Racing X K event B

/-- The rest of an append goes on from a snapshot that was taken before the event was there. -/
def Together (X : Crates) (K : AtomicKeyspace) (stream : StreamId) (event : LogicalEvent)
    (h : History {c : RaceCall // c.Fair stream event} fun c => c.1.Res) : Prop :=
  ∀ i e listMax hintSeq ids, h.At i e → e.label = .start ⟨.land listMax hintSeq ids, trivial⟩ →
    ∃ j t, j < i ∧ h.Done j t ⟨.look, trivial⟩ (.ok (listMax, hintSeq)) ∧
      ∀ q, 0 < q → ¬ stream.Carries X K event (h.storeAt j) q

section
variable {X : Crates} {K : AtomicKeyspace} {B : Backend} {stream : StreamId} {event : LogicalEvent} {fuel t : ℕ} {Call : Type}
  {Res : Call → Type} {S : System Store Req Resp Call Res} {h : History Call Res}

/-- What a call of the race has learnt when it returns. -/
def RaceCall.Learns (X : Crates) (K : AtomicKeyspace) (stream : StreamId) (event : LogicalEvent) (s : Store) :
    (c : RaceCall) → c.Res → Prop
  | look, res => ∀ listMax hintSeq, res = .ok (listMax, hintSeq) → Keyspace.trimCertPrefix stream.value = .ok stream.certPrefix ∧
      ((∀ q, 0 < q → ¬ stream.Carries X K event s q) → max listMax hintSeq ≠ maxSeq →
        stream.Clear X K event s (max listMax hintSeq + 1))
  | land _ _ _, res => ∀ receipt, res = .ok receipt → stream.Receipted X K event s receipt
  | other _, _ => True

theorem race_other {c : StreamCall} (hS : S.exec = B.delivers) (hc : (RaceCall.other c).Fair stream event)
    (hI : (raceLaw X K stream event B).Inv B.delivers h) :
    Safe S ((raceLaw X K stream event B).Inv B.delivers) t (c.prog X K fuel) (fun _ _ => True) h := by
  obtain ⟨⟨rfl, hlog⟩, hc⟩ := hc
  -- what publishes only at the genesis and the tail hint
  have haside : (∀ key, c.Publishes key → ¬ c.stream.Region K (K.root ++ key)) →
      (∀ sc, c.Uses sc → ∃ key, c.Publishes key ∧ sc.publishes = some key) →
      Safe S ((raceLaw X K c.stream event B).Inv B.delivers) t (c.prog X K fuel) (fun _ _ => True) h := by
    intro hp hu
    refine Law.safe_of_every (P := c.Asks X K) hS (fun s r hs hr => ?_) c.asks
    rcases hr with hr | ⟨sc, huses, hw⟩
    · exact lets_looks hs (Keyspace.looks_of_reads r hr)
    · obtain ⟨key, hkey, hsc⟩ := hu sc huses
      exact letsPublish_of_not raceLaw_over (hp key hkey) hs sc hsc r hw
  cases c with
  | append => exact race_append hc hS hI
  | appendExpected => exact race_appendExpected rfl hc hS hI
  | trim | gc => exact hc.elim
  | advanceCursor | migrateLog | writeMigrationSeal => exact hlog.elim
  | _ =>
    refine haside ?_ ?_
    · rintro key (_ | _)
      all_goals first | exact StreamId.not_region_genesis | exact StreamId.not_region_tail
    · rintro sc (⟨hkey, hsc⟩ | _ | _)
      exact ⟨_, hkey, hsc⟩

/-- The rest of an append, from a snapshot of the log without the event. -/
theorem race_land {listMax hintSeq : UInt64} {ids : ℕ → Bytes} (hg : event.Named stream) (hS : S.exec = B.delivers)
    (hpfx : Keyspace.trimCertPrefix stream.value = .ok stream.certPrefix) (hI : (raceLaw X K stream event B).Inv B.delivers h)
    (hbase : max listMax hintSeq ≠ maxSeq → stream.Clear X K event h.store (max listMax hintSeq + 1)) :
    Safe S ((raceLaw X K stream event B).Inv B.delivers) t
      (appendLand X K fuel ids stream event.schemaId event.id event.payload listMax hintSeq).run
      (fun r h' => ∀ receipt, r = .ok receipt → stream.Receipted X K event h'.store receipt) h := by
  refine (safe_appendLand hS raceLaw_log hpfx race_certified_stable (race_guessed (n := h.now)) hI le_rfl ?_).imp ?_
  · intro h₁ answer hle hI₁ htold hmax
    -- an untrimmed log has no floor
    have hfloor : answer = none := by
      cases answer with
      | none => rfl
      | some f => exact absurd (race_certified_stable f |>.since hI₁ (htold.sound f rfl)) (hI₁.state.untrimmed f)
    rw [hfloor, Option.getD_none, show max (max listMax hintSeq + 1) 0 = max listMax hintSeq + 1 from UInt64.toNat_inj.1 (by
      rw [toNat_max, UInt64.toNat_zero, Nat.max_zero])]
    refine ⟨?_, (clear_stable _).store hI₁ hle (hbase hmax)⟩
    rw [UInt64.lt_iff_toNat_lt, toNat_succ hmax]
    exact Nat.succ_pos _
  · intro r h₁ hle hI₁ hr receipt hreceipt
    exact receipted_of_appended hg hI₁ (hr receipt hreceipt)

/-- What a snapshot of the log without the event tells. -/
theorem clear_of_look {n : ℕ} {listMax hintSeq : UInt64} (hI : (raceLaw X K stream event B).Inv B.delivers h)
    (hlist : Witnessed stream K h n listMax) (hhint : Witnessed stream K h n hintSeq)
    (hnone : ∀ q, 0 < q → ¬ stream.Carries X K event h.store q) (hmax : max listMax hintSeq ≠ maxSeq) :
    stream.Clear X K event h.store (max listMax hintSeq + 1) := by
  refine ⟨?_, fun q hq hc => absurd hc (hnone q hq)⟩
  have hwitness : Witnessed stream K h n (max listMax hintSeq) := by
    rw [show max listMax hintSeq = if listMax ≤ hintSeq then hintSeq else listMax from rfl]
    split
    · exact hhint
    · exact hlist
  rw [toNat_succ hmax]
  exact reached_of_witnessed (raceLaw_inv hI) hwitness

/-- Racing retries of one event land it once: at no time do two positions carry its id, and those that return a receipt all
return the same one, that of the event which is there from then on. -/
theorem retries_land_once {w : World Store Req Resp {c : RaceCall // c.Fair stream event} fun c => c.1.Res} (hg : event.Named stream)
    (hw : Reach (raceSystem X K B fuel stream event) w) (htogether : Together X K stream event w.hist) :
    (∀ i ≤ w.hist.now, ∀ p q, 0 < p → 0 < q → stream.Carries X K event (w.hist.storeAt i) p →
      stream.Carries X K event (w.hist.storeAt i) q → p = q) ∧
    ∃ receipt, ∀ i t listMax hintSeq ids r, w.hist.Done i t ⟨.land listMax hintSeq ids, trivial⟩ (.ok r) →
      r = receipt ∧ ∀ j, i ≤ j → j ≤ w.hist.now → stream.Receipted X K event (w.hist.storeAt j) r := by
  have hsafe : ∀ (h : History {c : RaceCall // c.Fair stream event} fun c => c.1.Res) c, h.push (.start c) h.store ≤ w.hist →
      (raceLaw X K stream event B).Inv B.delivers h →
      (∀ i t c res, h.Done i t c res → ∃ h', h' ≤ h ∧ h'.now = i ∧ c.1.Learns X K stream event h'.store res) →
      Safe (raceSystem X K B fuel stream event) ((raceLaw X K stream event B).Inv B.delivers) h.now
        (c.1.prog X K fuel stream event) (fun res h' => c.1.Learns X K stream event h'.store res) (h.push (.start c) h.store) := by
    rintro h ⟨c, hc⟩ hle hI hdone
    have hI' := hI.start (raceLaw X K stream event B).refl (⟨c, hc⟩ : {c : RaceCall // c.Fair stream event})
    cases c with
    | other c => exact (race_other rfl hc hI').imp fun _ _ _ _ _ => trivial
    | look =>
      refine (safe_appendLook rfl hI').imp fun res h₁ _ hI₁ hlook listMax hintSeq hres => ?_
      obtain ⟨hpfx, hlist, hhint⟩ := hlook listMax hintSeq hres
      exact ⟨hpfx, clear_of_look hI₁ hlist hhint⟩
    | land listMax hintSeq ids =>
      obtain ⟨j, t, hj, hd, hnone⟩ := htogether h.now _ listMax hintSeq ids (Hist.at_mono hle Hist.at_push_now) rfl
      obtain ⟨e, he, hl⟩ := hd
      have hle' : h ≤ w.hist := Hist.le_push.trans hle
      obtain ⟨h₁, hle₁, rfl, hlearns⟩ := hdone j t _ _ ⟨e, Hist.at_of_lt hle' he hj, hl⟩
      obtain ⟨hpfx, hclear⟩ := hlearns listMax hintSeq rfl
      rw [← Hist.store_eq_storeAt (hle₁.trans hle')] at hnone
      refine race_land hg rfl hpfx hI' fun hmax => ?_
      exact (clear_stable _).store hI' (hle₁.trans Hist.le_push) (hclear hnone hmax)
  obtain ⟨hI, hdone⟩ := Law.reach_upto (fun _ hs => hs) hsafe hw
  refine ⟨fun i hi => (hI.stateAt hi).once, ?_⟩
  have hkept : ∀ {i t listMax hintSeq ids r}, w.hist.Done i t ⟨.land listMax hintSeq ids, trivial⟩ (.ok r) →
      ∀ j, i ≤ j → j ≤ w.hist.now → stream.Receipted X K event (w.hist.storeAt j) r := by
    rintro i t listMax hintSeq ids r hd j hij hj
    obtain ⟨h₁, hle₁, rfl, hlearns⟩ := hdone _ _ _ _ hd
    have hr : stream.Receipted X K event h₁.store r := hlearns r rfl
    rw [Hist.store_eq_storeAt hle₁] at hr
    exact (receipted_stable r).storeAt hI hij hj hr
  have hlast : ∀ {i t listMax hintSeq ids r}, w.hist.Done i t ⟨.land listMax hintSeq ids, trivial⟩ (.ok r) →
      stream.Receipted X K event w.hist.store r := by
    rintro i t listMax hintSeq ids r hd
    rw [← Hist.storeAt_now]
    refine hkept hd _ ?_ le_rfl
    obtain ⟨e, he, -⟩ := hd
    exact (Hist.at_lt he).le
  by_cases hsome : ∃ i t listMax hintSeq ids r, w.hist.Done i t ⟨.land listMax hintSeq ids, trivial⟩ (.ok r)
  · obtain ⟨i, t, listMax, hintSeq, ids, r, hd⟩ := hsome
    exact ⟨r, fun i' t' listMax' hintSeq' ids' r' hd' => ⟨receipted_unique hI.state (hlast hd') (hlast hd), hkept hd'⟩⟩
  · exact ⟨⟨stream, 0, event.id, []⟩, fun i t listMax hintSeq ids r hd => absurd ⟨i, t, listMax, hintSeq, ids, r, hd⟩ hsome⟩

end

/-! ### Two retries behind another event -/

/-- An event of the one-letter stream. -/
def letterEvent : LogicalEvent := ⟨⟨"x".toList⟩, ⟨"e1".toList⟩, [49]⟩

/-- The one-letter stream is created, and two appends look at it. -/
def letterLooked : World Store Req Resp {c : RaceCall // c.Fair letterStream letterEvent} fun c => c.1.Res :=
  let S := raceSystem Serde.crates Keyspace.letterSpace .honest 9 letterStream letterEvent
  (((⟨.empty ∅, fun _ => none⟩ : World Store Req Resp _ _).alone S.prog (Store.serve contentTag)
    ⟨.other (.createStreamWithId letterStream [] fun _ => []), ⟨rfl, trivial⟩, trivial⟩ 10).alone S.prog (Store.serve contentTag)
    ⟨.look, trivial⟩ 20).alone S.prog (Store.serve contentTag) ⟨.look, trivial⟩ 20

/-- Another event lands first; the two appends go on in turns. -/
def letterLands : List (Move {c : RaceCall // c.Fair letterStream letterEvent}) :=
  let n := letterLooked.hist.now
  .start ⟨.other (.append letterStream ⟨"x".toList⟩ ⟨"e2".toList⟩ [50] fun _ => []), ⟨rfl, trivial⟩,
    fun h => absurd (congrArg (List.getLast? ∘ StableEventId.value) h) (by decide)⟩ ::
  .start ⟨.land 0 0 fun _ => [], trivial⟩ :: .start ⟨.land 0 0 fun _ => [], trivial⟩ :: List.replicate 8 (.step n) ++
  (List.replicate 20 [.step (n + 1), .step (n + 2)]).flatten

def letterRace : World Store Req Resp {c : RaceCall // c.Fair letterStream letterEvent} fun c => c.1.Res :=
  letterLands.foldl (World.move (raceSystem Serde.crates Keyspace.letterSpace .honest 9 letterStream letterEvent).prog
    (Store.serve contentTag)) letterLooked

section
variable {stream : StreamId} {event : LogicalEvent} {h : History {c : RaceCall // c.Fair stream event} fun c => c.1.Res} {i : ℕ}

/-- The snapshot that is returned at a step. -/
def lookedAt (h : History {c : RaceCall // c.Fair stream event} fun c => c.1.Res) (i : ℕ) : Option (UInt64 × UInt64) :=
  match h.steps[i]? with
  | some ⟨.done _ ⟨.look, _⟩ (.ok r), _, _⟩ => some r
  | _ => none

/-- The receipt that is returned at a step. -/
def landedAt (h : History {c : RaceCall // c.Fair stream event} fun c => c.1.Res) (i : ℕ) : Option AppendReceipt :=
  match h.steps[i]? with
  | some ⟨.done _ ⟨.land _ _ _, _⟩ (.ok r), _, _⟩ => some r
  | _ => none

theorem done_of_lookedAt {r : UInt64 × UInt64} (hr : lookedAt h i = some r) : ∃ t, h.Done i t ⟨.look, trivial⟩ (.ok r) := by
  unfold lookedAt at hr
  split at hr
  · next t _ r' _ _ he =>
    cases hr
    exact ⟨t, _, he, rfl⟩
  · cases hr

theorem done_of_landedAt {r : AppendReceipt} (hr : landedAt h i = some r) :
    ∃ t listMax hintSeq ids, h.Done i t ⟨.land listMax hintSeq ids, trivial⟩ (.ok r) := by
  unfold landedAt at hr
  split at hr
  · next t listMax hintSeq ids _ r' _ _ he =>
    cases hr
    exact ⟨t, listMax, hintSeq, ids, _, he, rfl⟩
  · cases hr

end

set_option maxRecDepth 10000 in
theorem letterRace_run : letterLooked.hist.now = 17 ∧ lookedAt letterRace.hist 10 = some (0, 0) ∧
    (letterRace.hist.storeAt 10).keys = [Keyspace.letterSpace.root ++ letterStream.logKey 0] ∧
    (landedAt letterRace.hist 49).isSome ∧ (landedAt letterRace.hist 50).isSome := by decide +kernel

theorem reach_letterRace : Reach (raceSystem Serde.crates Keyspace.letterSpace .honest 9 letterStream letterEvent) letterRace := by
  have hempty : letterStream.Racing Serde.crates Keyspace.letterSpace letterEvent .honest ∅ := by
    refine ⟨dense_empty, fun _ hf => hf rfl, fun q _ o ho => (by cases ho), ?_⟩
    rintro p q - - ⟨_, ⟨o, ho, -⟩, -⟩
    cases ho
  exact ((((Reach.init hempty).alone Backend.delivers_honest _ 10).alone Backend.delivers_honest _ 20).alone
    Backend.delivers_honest _ 20).moves Backend.delivers_honest _

/-- Nothing lands before the two have looked. -/
theorem not_land_of_letterLooked {i : ℕ} {e} {listMax hintSeq : UInt64} {ids : ℕ → Bytes} (he : letterLooked.hist.At i e)
    (hl : e.label = .start ⟨.land listMax hintSeq ids, trivial⟩) : False := by
  rw [letterLooked] at he
  rcases started_of_alone he hl with he | hc
  · rcases started_of_alone he hl with he | hc
    · rcases started_of_alone he hl with he | hc
      · exact Hist.not_at_empty he
      · cases hc
    · cases hc
  · cases hc

theorem land_of_letterLands {listMax hintSeq : UInt64} {ids : ℕ → Bytes}
    (hc : .start ⟨.land listMax hintSeq ids, trivial⟩ ∈ letterLands) : listMax = 0 ∧ hintSeq = 0 := by
  simp only [letterLands, List.cons_append, List.mem_cons, List.mem_append, List.mem_replicate, List.mem_flatten, Move.start.injEq,
    reduceCtorEq, and_false, false_or] at hc
  rcases hc with hc | hc | hc | ⟨l, ⟨-, rfl⟩, hc⟩
  · cases congrArg Subtype.val hc
  · cases congrArg Subtype.val hc
    exact ⟨rfl, rfl⟩
  · cases congrArg Subtype.val hc
    exact ⟨rfl, rfl⟩
  · simp at hc

theorem together_letterRace : Together Serde.crates Keyspace.letterSpace letterStream letterEvent letterRace.hist := by
  obtain ⟨hnow, hlook, hkeys, -, -⟩ := letterRace_run
  obtain ⟨t, hd⟩ := done_of_lookedAt hlook
  intro i e listMax hintSeq ids he hl
  rw [letterRace] at he
  rcases started_of_moves he hl with he | ⟨hi, hc⟩
  · exact (not_land_of_letterLooked he hl).elim
  obtain ⟨rfl, rfl⟩ := land_of_letterLands hc
  rw [hnow] at hi
  refine ⟨10, t, by omega, hd, fun q hq hc => ?_⟩
  obtain ⟨landed, ⟨o, ho, -⟩, -⟩ := hc
  generalize letterRace.hist.storeAt 10 = s at hkeys ho
  have hmem : Keyspace.letterSpace.root ++ letterStream.logKey q ∈ s := AList.lookup_isSome.1 (Option.isSome_iff_exists.2 ⟨o, ho⟩)
  rw [AList.mem_keys, hkeys, List.mem_singleton] at hmem
  rw [StreamId.logKey_injective (List.append_cancel_left hmem)] at hq
  exact UInt64.lt_irrefl 0 hq

theorem named_letterEvent : letterEvent.Named letterStream := by
  have hgrammatical : ∀ value : Str, validateSegment "id" value = .ok () → Grammatical value := fun _ => validateSegment_ok.1
  exact ⟨hgrammatical _ (by decide), hgrammatical _ (by decide), hgrammatical _ (by decide)⟩

/-- The two return one receipt, of the event at the second position. -/
theorem retries_land_once_letter : ∃ r, landedAt letterRace.hist 49 = some r ∧ landedAt letterRace.hist 50 = some r ∧
    letterStream.Receipted Serde.crates Keyspace.letterSpace letterEvent letterRace.hist.store r := by
  obtain ⟨-, receipt, hreceipt⟩ := retries_land_once named_letterEvent reach_letterRace together_letterRace
  obtain ⟨-, -, -, h₁, h₂⟩ := letterRace_run
  obtain ⟨r₁, h₁⟩ := Option.isSome_iff_exists.1 h₁
  obtain ⟨r₂, h₂⟩ := Option.isSome_iff_exists.1 h₂
  obtain ⟨t₁, l₁, s₁, i₁, hd₁⟩ := done_of_landedAt h₁
  obtain ⟨t₂, l₂, s₂, i₂, hd₂⟩ := done_of_landedAt h₂
  obtain ⟨rfl, hkept⟩ := hreceipt _ _ _ _ _ _ hd₁
  obtain ⟨rfl, -⟩ := hreceipt _ _ _ _ _ _ hd₂
  refine ⟨r₂, h₁, h₂, ?_⟩
  rw [← Hist.storeAt_now]
  obtain ⟨e, he, -⟩ := hd₁
  exact hkept _ (Hist.at_lt he).le le_rfl

end YeetzS3.Streams
