import YeetzS3.Conc.Duty
import YeetzS3.Streams.Cursors

/-!
# What an append at a position did

`append_expected` among clients of any kind, which only leave the certificates where they are and write no chunked events.
Whatever the answers to its requests were, it wrote nowhere but at the successor of its predecessor, and what its result
tells of its effect is true.
-/

namespace YeetzS3.Streams

open Conc
open Keyspace (AtomicKeyspace ValidPath ValueEnvelope FloorTold)

/-! ### A creation among clients of any kind -/

section
variable {Call : Type} {Res : Call → Type} {S : System Store Req Resp Call Res} {B : Backend} {L : Law Store} {t : ℕ}
  {h h' : History Call Res} {O : Outside} {K : AtomicKeyspace} {key : Str} {n fuel : ℕ} {value : Bytes} {ids : ℕ → Bytes} {s : Store}
  {P : Req → Prop}

theorem under_check_of {ε α β : Type} {A : (r : Req) → Resp r → Prop} {P : Req → Prop} {x : Except ε α} {f : α → StoreOp ε β}
    (hf : ∀ a, x = .ok a → (f a).run.Under A P fun _ => True) : (check x >>= f).run.Under A P fun _ => True := by
  cases x with
  | error e => trivial
  | ok a => exact hf a rfl

/-- A request of an inline creation: it reads, puts the value where nothing is, or deletes at the same place under an etag as
`T` says. -/
inductive Creates (K : AtomicKeyspace) (key : Str) (value : Bytes) (T : Etag → Prop) : Req → Prop where
  | read {r : Req} (hr : K.Reads r) : Creates K key value T r
  | put (hv : ValidPath key) (incarnation : UInt64) :
      Creates K key value T (.put (K.root ++ key) (ValueEnvelope.mk incarnation 0 value).encode none)
  | evict (e : Etag) (he : T e) : Creates K key value T (.deleteIf (K.root ++ key) e)

/-- An etag that a creation of the value may have been given. -/
def OwnTag (B : Backend) (value : Bytes) (e : Etag) : Prop := ∃ i, B.tags (ValueEnvelope.mk i 0 value).encode e

/-- The object at a key is inline, with this value. -/
def StoresInline (K : AtomicKeyspace) (key : Str) (s : Store) (value : Bytes) : Prop :=
  ∃ o e, s.lookup (K.root ++ key) = some o ∧ o.data = ValueEnvelope.encode e ∧ e.payload = value

section
variable {A : (r : Req) → Resp r → Prop} {T : Etag → Prop}

theorem creates_reads : Keyspace.Key.AllowsReads K (Creates K key value T) := Keyspace.allowsReads_of fun _ hr => .read hr

/-- An eviction deletes under an etag that stood beside the bytes of the value. -/
theorem under_evictStaleEra (hT : ∀ i e, A (.get (K.root ++ key)) (.ok ((ValueEnvelope.mk i 0 value).encode, some e)) → T e)
    (hv : ValidPath key) (i : UInt64) :
    (Keyspace.evictStaleEra K key (K.root ++ key) i (ValueEnvelope.mk i 0 value).encode).run.Under A (Creates K key value T)
      fun _ => True := by
  refine Prog.under_bind_trivial (Keyspace.Key.every_currentIncarnation creates_reads _).under fun n => ?_
  split
  · trivial
  refine Op.under_ask_bind.2 ⟨creates_reads.valid hv, ?_⟩
  rintro ((_ | _ | _) | ⟨data, _ | e⟩) hx
  any_goals trivial
  dsimp only
  split
  · next hown =>
    refine Op.under_ask_bind.2 ⟨.evict e (hT i e (hown ▸ hx)), ?_⟩
    rintro ((_ | _ | _) | u) - <;> trivial
  · trivial

theorem under_creates (hT : ∀ i e, A (.get (K.root ++ key)) (.ok ((ValueEnvelope.mk i 0 value).encode, some e)) → T e)
    (hshort : value.length ≤ Keyspace.inlineMax) :
    (Keyspace.create O K fuel key value ids).run.Under A (Creates K key value T) fun _ => True := by
  refine Keyspace.under_check_bind fun _ _ => ?_
  have hmax : ¬ value.length > Keyspace.maxLogicalBytes := by
    have : Keyspace.inlineMax ≤ Keyspace.maxLogicalBytes := by decide
    omega
  rw [if_neg hmax]
  refine Keyspace.under_check_bind fun path hp => ?_
  obtain ⟨rfl, hv⟩ := AtomicKeyspace.objectKey_ok hp
  rw [if_neg (by omega)]
  generalize 8 = tries
  induction tries with
  | zero => trivial
  | succ tries ih =>
    refine Prog.under_bind_trivial (Keyspace.Key.every_currentIncarnation creates_reads _).under fun n => ?_
    refine Op.under_ask_bind.2 ⟨.put hv n, ?_⟩
    rintro ((_ | _ | _) | y) -
    any_goals trivial
    refine Prog.under_bind_trivial (under_evictStaleEra hT hv _) ?_
    rintro (_ | _ | e)
    · trivial
    · exact ih
    · trivial

theorem every_evictStaleEra (hv : ValidPath key) (i : UInt64) :
    (Keyspace.evictStaleEra K key (K.root ++ key) i (ValueEnvelope.mk i 0 value).encode).run.Every (Creates K key value fun _ => True)
      fun _ => True :=
  Prog.under_true.1 (under_evictStaleEra (fun _ _ _ => trivial) hv i)

theorem every_creates (hshort : value.length ≤ Keyspace.inlineMax) :
    (Keyspace.create O K fuel key value ids).run.Every (Creates K key value fun _ => True) fun _ => True :=
  Prog.under_true.1 (under_creates (fun _ _ _ => trivial) hshort)

end

/-- A law under which a creation may be made. -/
def LetsCreate (B : Backend) (K : AtomicKeyspace) (key : Str) (value : Bytes) (L : Law Store) : Prop :=
  ∀ s r, L.Good s → Creates K key value (fun _ => True) r → L.Lets B.delivers s r

/-- A creation that returns has stored its value at some moment. -/
theorem safe_creates (hS : S.exec = B.delivers) (hlet : LetsCreate B K key value L) (hI : L.Inv B.delivers h)
    (hshort : value.length ≤ Keyspace.inlineMax) :
    Safe S (L.Inv B.delivers) t (Keyspace.create O K fuel key value ids).run
      (fun r h' => r = .ok () → h'.Since h.now (StoresInline K key · value)) h := by
  have hfail : ∀ (e : KeyspaceError) {n : ℕ} {h' : History Call Res}, Safe S (L.Inv B.delivers) t (.ret (.error e))
      (fun (r : Except KeyspaceError Unit) h'' => r = .ok () → h''.Since n (StoresInline K key · value)) h' :=
    fun e _ _ => Safe.ret fun _ _ hr => by cases hr
  have hloop : ∀ tries {h₁ : History Call Res}, h ≤ h₁ → L.Inv B.delivers h₁ → ValidPath key →
      Safe S (L.Inv B.delivers) t (Keyspace.createInline K key (K.root ++ key) value tries).run
        (fun r h' => r = .ok () → h'.Since h.now (StoresInline K key · value)) h₁ := by
    intro tries
    induction tries with
    | zero => exact fun _ _ _ => hfail _
    | succ tries ih =>
      intro h₁ hle hI₁ hv
      refine Safe.seqE hI₁ (Law.safe_of_every (Q := fun _ => True) hS hlet (Keyspace.Key.every_currentIncarnation creates_reads _))
        (fun e _ _ _ _ hr => by cases hr) fun i h₂ hle₂ hI₂ _ => ?_
      rw [Op.run_ask_bind]
      refine Law.safe_call hS (fun h₃ hr => hlet _ _ hr.inv.state (.put hv i)) fun h₃ hr y s hx hI₃ => ?_
      rcases y with (_ | _ | _) | y
      · exact hfail _
      · exact hfail _
      · exact hfail _
      · have hle₃ : h ≤ h₃ := hle.trans (hle₂.trans hr.le)
        have hstored := Hist.Since.of_post (l := .ask t (.put (K.root ++ key) (ValueEnvelope.mk i 0 value).encode none) (.ok y))
          (P := (StoresInline K key · value)) (s := s) (Hist.now_le hle₃) (by
            obtain ⟨-, e, -, rfl, -⟩ := Backend.delivers_put_ok hx
            rw [pathFrom_key hv]
            exact ⟨_, _, AList.lookup_insert .., rfl, rfl⟩)
        refine Safe.seqE hI₃ (Law.safe_of_every (Q := fun _ => True) hS hlet (every_evictStaleEra hv _))
          (fun e _ _ _ _ hr => by cases hr) ?_
        rintro (_ | _ | e) h₄ hle₄ hI₄ -
        · exact Safe.ret fun h₅ hr₅ _ => hstored.mono (hle₄.trans hr₅.le) le_rfl
        · exact ih (hle₃.trans (Hist.le_push.trans hle₄)) hI₄ hv
        · exact hfail _
  unfold Keyspace.create
  cases Keyspace.ensureNotReservedKey key with
  | error e => exact hfail e
  | ok u =>
    have hmax : ¬ value.length > Keyspace.maxLogicalBytes := by
      have : Keyspace.inlineMax ≤ Keyspace.maxLogicalBytes := by decide
      omega
    show Safe S _ t (if value.length > Keyspace.maxLogicalBytes then _ else _ : Keyspace.KeyOp Unit).run _ _
    rw [if_neg hmax]
    cases hp : K.objectKey key with
    | error e => exact hfail e
    | ok path =>
      obtain ⟨rfl, hv⟩ := AtomicKeyspace.objectKey_ok hp
      show Safe S _ t (if value.length > Keyspace.inlineMax then _ else _ : Keyspace.KeyOp Unit).run _ _
      rw [if_neg (by omega)]
      exact hloop 8 le_rfl hI hv

end

/-! ### Clients that keep the certificates -/

section
variable (B : Backend) (K : AtomicKeyspace)

/-- No event is chunked, and no certificate of a stream disappears. -/
def floorLaw : Law Store where
  Good s := ∀ (stream : StreamId) q o, s.lookup (K.root ++ stream.logKey q) = some o → ∃ e, o.data = ValueEnvelope.encode e
  Goes s s' := ∀ (stream : StreamId) f, K.Certified s stream.certPrefix f → K.Certified s' stream.certPrefix f
  refl _ _ _ := id
  trans h₁ h₂ stream f h := h₂ stream f (h₁ stream f h)

/-- A program of such a client. -/
structure KeepsFloors {α : Type} (p : Prog Req Resp α) : Prop where
  every : p.Every (fun r => ∀ s, (floorLaw K).Good s → (floorLaw K).Lets B.delivers s r) fun _ => True

end

section
variable {Call : Type} {Res : Call → Type} {S : System Store Req Resp Call Res} {B : Backend} {t n fuel : ℕ}
  {h h' : History Call Res} {X : Crates} {K : AtomicKeyspace} {stream stream' : StreamId} {p q f target : UInt64} {value : Bytes}
  {ids : ℕ → Bytes} {s : Store} {maxObserved : Option UInt64} {receipt : AppendReceipt}

theorem floor_stable (f : UInt64) : (floorLaw K).Stable fun s => K.Certified s stream.certPrefix f :=
  fun _ _ _ _ hg => hg stream f

theorem logKey_ne_cert_of : stream.logKey q ≠ stream'.certPrefix ++ seqComponent f := by
  intro h
  rw [StreamId.logKey_dir, cert_eq, show stream'.value ++ '/' :: ("trims".toList ++ '/' :: seqComponent f) =
    (stream'.value ++ "/trims".toList) ++ '/' :: seqComponent f by
      rw [show "/trims".toList = '/' :: "trims".toList by decide]
      generalize "trims".toList = l
      simp] at h
  have hlast := congrArg List.getLast? (dir_inj h).1
  rw [List.getLast?_append, List.getLast?_append, show "/log".toList.getLast? = some 'g' by decide,
    show "/trims".toList.getLast? = some 's' by decide] at hlast
  cases hlast

/-- The creation of an event keeps the law. -/
theorem lets_event : LetsCreate B K (stream.logKey q) value (floorLaw K) := by
  have hcert : ∀ {s s' : Store}, (∀ key, key ≠ stream.logKey q → AList.lookup (K.root ++ key) s' = s.lookup (K.root ++ key)) →
      (floorLaw K).Goes s s' := by
    intro s s' hsame stream' f hf
    rw [AtomicKeyspace.Certified, hsame _ logKey_ne_cert_of.symm]
    exact hf
  intro s r hs hr
  cases hr with
  | read hr => exact lets_looks hs (Keyspace.looks_of_reads r hr)
  | put hv i =>
    refine lets_create hs fun _ e _ => ?_
    rw [pathFrom_key hv]
    refine ⟨fun stream' q' o ho => ?_, hcert fun key hne => lookup_insert_key hne⟩
    by_cases hkey : stream'.logKey q' = stream.logKey q
    · rw [hkey, AList.lookup_insert] at ho
      cases ho
      exact ⟨_, rfl⟩
    · rw [lookup_insert_key hkey] at ho
      exact hs stream' q' o ho
  | evict e _ =>
    intro x s' hx
    obtain rfl | ⟨-, rfl⟩ := Backend.delivers_deleteIf hx
    · exact ⟨hs, (floorLaw K).refl _⟩
    · refine ⟨fun stream' q' o ho => ?_, hcert fun key hne => lookup_erase_key hne⟩
      by_cases hkey : stream'.logKey q' = stream.logKey q
      · rw [hkey, AList.lookup_erase] at ho
        cases ho
      · rw [lookup_erase_key hkey] at ho
        exact hs stream' q' o ho

/-- What a read of an event shows is stored inline. -/
theorem stores_of_shows {o : Object} (hs : (floorLaw K).Good s) (ho : s.lookup (K.root ++ stream.logKey q) = some o)
    (hshows : Keyspace.Shows X.toOutside (stream.logKey q) o value) : StoresInline K (stream.logKey q) s value := by
  obtain ⟨e, he⟩ := hs stream q o ho
  obtain ⟨c, hc, hinl⟩ := hshows
  have hread : Keyspace.ControlEnvelope.decode X.toOutside (stream.logKey q) o.data = .ok (.inline e) :=
    Keyspace.ControlEnvelope.decode_inline.2 he
  cases hc.symm.trans hread
  exact ⟨o, e, ho, he, hinl _ rfl⟩

theorem stores_unique {value' : Bytes} {key : Str} (h : StoresInline K key s value) (h' : StoresInline K key s value') : value = value' := by
  obtain ⟨o, e, ho, hd, rfl⟩ := h
  obtain ⟨o', e', ho', hd', rfl⟩ := h'
  obtain rfl := Option.some.inj (ho.symm.trans ho')
  have hread := Keyspace.ValueEnvelope.decode_encode [] e
  have hread' := Keyspace.ValueEnvelope.decode_encode [] e'
  rw [← hd, hd'] at hread
  cases hread.symm.trans hread'
  rfl

/-- What a read of an event since time `n` says. -/
inductive Read (X : Crates) (K : AtomicKeyspace) (B : Backend) (stream : StreamId) (q : UInt64) (h : History Call Res) (n : ℕ) :
    Except KeyspaceError (Option Bytes) → Prop where
  | absent (ha : h.Since n fun s => s.lookup (K.root ++ stream.logKey q) = none) : Read X K B stream q h n (.ok none)
  | stores {value : Bytes} (hv : h.Since n (StoresInline K (stream.logKey q) · value)) : Read X K B stream q h n (.ok (some value))
  | invalid {e e' : KeyspaceError} (he : K.objectKey (stream.logKey q) = .error e) : Read X K B stream q h n (.error e')
  | failed {e : KeyspaceError} (hf : B.faults) : Read X K B stream q h n (.error e)

/-- A read of an event says what is stored. -/
theorem safe_getEvent (hS : S.exec = B.delivers) :
    Safe S ((floorLaw K).Inv B.delivers) t (Keyspace.get X.toOutside K (stream.logKey q)).run
      (fun r h' => Read X K B stream q h' h.now r) h := by
  refine (Keyspace.safe_get hS).imp fun r h' _ hI' hgot => ?_
  have hinline : ∀ {o : Object} {s : Store}, (floorLaw K).Good s → s.lookup (K.root ++ stream.logKey q) = some o →
      ∃ e, Keyspace.ControlEnvelope.decode X.toOutside (stream.logKey q) o.data = .ok (.inline e) := by
    intro o s hs ho
    obtain ⟨e, he⟩ := hs stream q o ho
    exact ⟨e, Keyspace.ControlEnvelope.decode_inline.2 he⟩
  cases hgot with
  | absent ha => exact .absent ha
  | shows hv =>
    refine .stores ((hI'.good_since hv).imp ?_)
    rintro s ⟨hs, o, ho, hshows⟩
    exact stores_of_shows hs ho hshows
  | invalid he => exact .invalid he
  | malformed he =>
    obtain ⟨i, -, -, hs, o, ho, hd⟩ := hI'.good_since he
    obtain ⟨e, he⟩ := hinline hs ho
    rw [hd] at he
    cases he
  | chunks he =>
    obtain ⟨i, -, -, hs, o, m, ho, hd⟩ := hI'.good_since he
    obtain ⟨e, he⟩ := hinline hs ho
    rw [hd] at he
    cases he
  | failed hf op => exact .failed hf

end

/-! ### Failures before the write -/

/-- A failure says that nothing was attempted. -/
def Refuses {α : Type} (r : Except AppendExpectedError α) : Prop := ∀ e, r = .error e → e.effect = .notAttempted

/-- It is a failure, and says so. -/
def Refused {α : Type} (r : Except AppendExpectedError α) : Prop := ∃ e, r = .error e ∧ e.effect = .notAttempted

section
variable {α β ε' : Type} {P : Req → Prop} {X : Crates} {K : AtomicKeyspace} {fuel : ℕ} {stream : StreamId} {predecessor : EventRef}
  {target floor : UInt64} {maxObserved : Option UInt64}

theorem refuses_error {e : AppendExpectedError} (he : e.effect = .notAttempted) : Refuses (.error e : Except AppendExpectedError α) := by
  intro e' h
  cases h
  exact he

theorem refuses_mapError {x : Except StreamsError α} : Refuses (x.mapError (storage · .notAttempted)) := by
  cases x with
  | error e => exact refuses_error rfl
  | ok a => exact fun _ h => by cases h

theorem refuses_retired : Refuses (refuseRetired predecessor target floor) := by
  unfold refuseRetired
  split
  · exact refuses_error rfl
  split
  · exact refuses_error rfl
  · exact fun _ h => by cases h

theorem refuses_matchPredecessor {observed : EventRef} : Refuses (matchPredecessor predecessor observed) := by
  unfold matchPredecessor
  split
  · exact fun _ h => by cases h
  · exact refuses_error rfl

theorem refuses_bind {p : ExpectedOp α} {f : α → ExpectedOp β} (hp : p.run.Every P Refuses) (hf : ∀ a, (f a).run.Every P Refuses) :
    (p >>= f).run.Every P Refuses := by
  rw [Prog.every_bindE]
  refine hp.imp ?_
  rintro (e | a) hq
  · exact refuses_error (hq e rfl)
  · exact hf a

theorem refused_bind {p : ExpectedOp α} {f : α → ExpectedOp β} (hp : p.run.Every P Refuses) (hf : ∀ a, (f a).run.Every P Refused) :
    (p >>= f).run.Every P Refused := by
  rw [Prog.every_bindE]
  refine hp.imp ?_
  rintro (e | a) hq
  · exact ⟨e, rfl, hq e rfl⟩
  · exact hf a

theorem refuses_check {x : Except AppendExpectedError α} (hx : Refuses x) : (check x).run.Every P Refuses := by
  cases x <;> exact hx

theorem refuses_mapErr {f : ε' → AppendExpectedError} {p : StoreOp ε' α} (hp : p.run.Every P fun _ => True)
    (hf : ∀ e, (f e).effect = .notAttempted) : (mapErr f p).run.Every P Refuses := by
  unfold mapErr
  rw [Op.run_attempt_bind, Prog.every_bind]
  refine hp.imp ?_
  rintro (e | a) -
  · exact refuses_error (hf e)
  · exact fun _ h => by cases h

variable (hP : ∀ r, K.Reads r → P r)
include hP

theorem refuses_observeBefore (operation : String) : (observeBefore K fuel stream operation maxObserved).run.Every P Refuses :=
  refuses_mapErr (every_observeFloor hP ..) fun _ => rfl

theorem refuses_verifyPredecessor (genesis : Envelope) :
    (verifyPredecessor X K fuel predecessor genesis target maxObserved).run.Every P Refuses := by
  unfold verifyPredecessor
  split
  · exact refuses_check refuses_matchPredecessor
  refine refuses_bind (refuses_mapErr (every_get (Keyspace.allowsReads_of hP) _) fun _ => rfl) ?_
  rintro (_ | bytes)
  · refine refuses_bind (refuses_observeBefore hP _) ?_
    rintro ⟨floor, _⟩
    exact refuses_bind (refuses_check refuses_retired) fun _ => refuses_error rfl
  · exact refuses_bind (refuses_check refuses_mapError) fun _ => refuses_check refuses_matchPredecessor

theorem refuses_probeLaterWitness : (probeLaterWitness X K stream target).run.Every P Refuses := by
  refine refuses_bind (refuses_mapErr (every_nextLogKeyAfter (Keyspace.allowsReads_of hP) ..) fun _ => rfl) ?_
  rintro (_ | later)
  · exact fun _ h => by cases h
  refine refuses_bind (refuses_mapErr (every_get (Keyspace.allowsReads_of hP) _) fun _ => rfl) ?_
  rintro (_ | bytes)
  · exact refuses_error rfl
  · exact refuses_bind (refuses_check refuses_mapError) fun _ => refuses_error rfl

/-- A target that cannot be read. -/
theorem refused_targetDamaged (err : StreamsError) : (targetDamaged K fuel predecessor target err).run.Every P Refused := by
  unfold targetDamaged
  split
  · refine refused_bind (refuses_observeBefore hP _) ?_
    rintro ⟨floor, _⟩
    dsimp only
    split <;> exact ⟨_, rfl, rfl⟩
  · exact ⟨_, rfl, rfl⟩

/-- A target that is occupied by another event. -/
theorem refused_targetOccupied {envelope : Envelope} {receipt : AppendReceipt} {bytes : Bytes} (hne : bytes ≠ envelope.encoded) :
    (targetOccupied X K fuel predecessor target envelope receipt bytes).run.Every P Refused := by
  unfold targetOccupied
  rw [if_neg hne]
  refine refused_bind (refuses_observeBefore hP _) ?_
  rintro ⟨floor, _⟩
  dsimp only
  split
  · exact ⟨_, rfl, rfl⟩
  · refine ⟨_, rfl, ?_⟩
    unfold occupied
    split <;> rfl

end

/-! ### Failures behind the write -/

/-- A failure does not say that nothing was attempted. -/
def Attempted (r : Except AppendExpectedError AppendReceipt) : Prop := ∀ e, r = .error e → e.effect ≠ .notAttempted

section
variable {X : Crates} {K : AtomicKeyspace} {fuel : ℕ} {ids : ℕ → Bytes} {stream : StreamId} {predecessor : EventRef} {target : UInt64}
  {maxObserved : Option UInt64} {envelope : Envelope} {receipt : AppendReceipt} {schemaId : SchemaId} {stableEventId : StableEventId}
  {payload : Bytes}

theorem every_attempt_of {ε' ε α β : Type} {P : Req → Prop} {Q : Except ε β → Prop} {p : StoreOp ε' α} {f : Except ε' α → StoreOp ε β}
    (hp : p.run.Every P fun _ => True) (hf : ∀ r, (f r).run.Every P Q) : (Op.attempt p >>= f).run.Every P Q := by
  rw [Op.run_attempt_bind, Prog.every_bind]
  exact hp.imp fun r _ => hf r

theorem attempted_error {e : AppendExpectedError} (he : e.effect ≠ .notAttempted) : Attempted (.error e) := by
  intro e' h
  cases h
  exact he

theorem attempted_adjudicateCommitted :
    (adjudicateCommitted K fuel stream target receipt maxObserved).run.Every (fun _ => True) Attempted := by
  refine every_attempt_of (Prog.every_true _) ?_
  rintro (e | ⟨floor, _⟩)
  · exact attempted_error (by simp [storage, failed])
  · dsimp only
    split
    · exact attempted_error (by simp [failed])
    · exact fun _ h => by cases h

theorem attempted_readBack :
    (readBack X K fuel predecessor target envelope receipt maxObserved).run.Every (fun _ => True) Attempted := by
  refine every_attempt_of (Prog.every_true _) ?_
  rintro (e | _ | bytes)
  · refine every_attempt_of (Prog.every_true _) ?_
    rintro (err | ⟨floor, _⟩)
    · cases err <;> exact attempted_error (by simp [storage, failed])
    · dsimp only
      split <;> exact attempted_error (by simp [storage, failed])
  · refine every_attempt_of (Prog.every_true _) ?_
    rintro (err | ⟨floor, _⟩)
    · exact attempted_error (by simp [storage, failed])
    · dsimp only
      split <;> exact attempted_error (by simp [storage, failed])
  · dsimp only
    split
    · exact attempted_adjudicateCommitted
    · refine every_attempt_of (Prog.every_true _) ?_
      rintro (err | ⟨floor, _⟩)
      · exact attempted_error (by simp [storage, failed])
      · dsimp only
        split
        · exact attempted_error (by simp [failed])
        · refine attempted_error ?_
          unfold occupied
          split <;> simp [storage, failed]

/-- From its create on, a call does not say that it attempted nothing; up to it, it only reads. -/
theorem until_appendExpected :
    (appendExpected X K fuel ids predecessor schemaId stableEventId payload).run.Until Req.Looks Attempted := by
  have hlooks := Keyspace.looks_of_reads (K := K)
  refine Prog.until_bindE every_check ?_
  rintro ⟨target, envelope⟩
  refine Prog.until_bindE (every_verifiedGenesis hlooks _) fun genesis =>
    Prog.until_attempt_bind (every_get (Keyspace.allowsReads_of hlooks) _) ?_
  rintro (_ | _ | bytes)
  · exact Prog.until_of_every (every_targetDamaged hlooks ..)
  · refine Prog.until_bindE (every_observeBefore hlooks ..) ?_
    rintro ⟨floor, maxObserved⟩
    refine Prog.until_bindE every_check fun _ => Prog.until_bindE (every_verifyPredecessor hlooks ..) fun _ =>
      Prog.until_bindE (every_probeLaterWitness hlooks ..) fun _ => Prog.until_bindE (every_observeBefore hlooks ..) ?_
    rintro ⟨floor, maxObserved⟩
    refine Prog.until_bindE every_check fun _ => Prog.until_of_always (every_attempt_of (Prog.every_true _) ?_)
    rintro (_ | _)
    · exact attempted_readBack
    · exact attempted_adjudicateCommitted
  · exact Prog.until_of_every (every_targetOccupied hlooks ..)

end

/-! ### The verdict behind the write -/

section
variable {Call : Type} {Res : Call → Type} {S : System Store Req Resp Call Res} {B : Backend} {t n m fuel : ℕ}
  {h h' : History Call Res} {X : Crates} {K : AtomicKeyspace} {stream : StreamId} {predecessor : EventRef} {target : UInt64} {ids : ℕ → Bytes}
  {maxObserved : Option UInt64} {receipt : AppendReceipt} {envelope : Envelope}

theorem reconcileFloor_ok {observed largest : Option UInt64} {floor : UInt64} {m : Option UInt64}
    (h : reconcileFloor observed largest = .ok (floor, m)) : floor = observed.getD 0 := by
  unfold reconcileFloor at h
  repeat' split at h
  all_goals cases h <;> rfl

/-- A floor that is observed is certified, and no certificate that was there is above it. -/
theorem safe_observeFloor {operation : String} (hS : S.exec = B.delivers) (hn : stream.value ≠ [])
    (hI : (floorLaw K).Inv B.delivers h) :
    Safe S ((floorLaw K).Inv B.delivers) t (observeFloor K fuel stream operation maxObserved).run
      (fun r h' => ∀ floor m, r = .ok (floor, m) → (0 < floor → h'.Since h.now (K.Certified · stream.certPrefix floor)) ∧
        (¬ B.omits → ∀ f, K.Certified h.store stream.certPrefix f → f ≤ floor)) h := by
  cases hp : Keyspace.trimCertPrefix stream.value with
  | error e =>
    have htrim : Keyspace.trimFloor K fuel stream.value = throw e := by
      unfold Keyspace.trimFloor
      rw [hp]
      rfl
    unfold observeFloor
    rw [htrim]
    exact Safe.ret fun _ _ floor m hr => by cases hr
  | ok certPrefix =>
  obtain rfl := trimCertPrefix_of_ne_nil hn hp
  refine safe_mapErr_bind hI (Keyspace.safe_trimFloor hS hp floor_stable hI) (fun e _ _ _ _ floor m hr => by cases hr)
    fun observed h₁ hle₁ hI₁ htold => ?_
  have htold := htold observed rfl
  cases hrec : reconcileFloor observed maxObserved with
  | error e => exact Safe.ret fun _ _ floor m hr => by cases hr
  | ok r =>
    refine Safe.ret fun h₂ hr₂ floor m hr => ?_
    cases hr
    have hfloor := reconcileFloor_ok hrec
    refine ⟨fun hpos => ?_, fun homits f hf => ?_⟩
    · cases observed with
      | none =>
        rw [hfloor] at hpos
        exact absurd hpos (UInt64.lt_irrefl 0)
      | some f =>
        rw [hfloor, Option.getD_some]
        exact (htold.sound f rfl).mono hr₂.le le_rfl
    · obtain ⟨f', hobs, hle⟩ := htold.complete homits f hf
      rw [hfloor, hobs]
      exact hle

/-- The verdict of an append whose event is at its target, when retention was observed since time `n`. -/
inductive Judged (K : AtomicKeyspace) (B : Backend) (stream : StreamId) (target : UInt64) (receipt : AppendReceipt) (h : History Call Res)
    (n : ℕ) : Except AppendExpectedError AppendReceipt → Prop where
  | kept (hk : ¬ B.omits → ∀ f, K.Certified (h.storeAt n) stream.certPrefix f → f ≤ target) :
      Judged K B stream target receipt h n (.ok receipt)
  | unseen (err : StreamsError) : Judged K B stream target receipt h n (.error (storage err (.committed receipt)))
  | expired {floor : UInt64} (hlt : target < floor) (hf : h.Since n (K.Certified · stream.certPrefix floor)) :
      Judged K B stream target receipt h n (.error (failed (.expired stream target floor .target) (.committed receipt)))

theorem safe_adjudicateCommitted (hS : S.exec = B.delivers) (hn : stream.value ≠ []) (hI : (floorLaw K).Inv B.delivers h) :
    Safe S ((floorLaw K).Inv B.delivers) t (adjudicateCommitted K fuel stream target receipt maxObserved).run
      (fun r h' => Judged K B stream target receipt h' h.now r) h := by
  refine Safe.seqAttempt hI (safe_observeFloor hS hn hI) ?_
  rintro (e | ⟨floor, m⟩) h₁ hle₁ hI₁ hseen
  · exact Safe.ret fun _ _ => .unseen e
  obtain ⟨hcert, hall⟩ := hseen floor m rfl
  dsimp only
  split
  · next hlt =>
    have hpos : 0 < floor := by
      have := UInt64.lt_iff_toNat_lt.1 hlt
      rw [UInt64.lt_iff_toNat_lt, UInt64.toNat_zero]
      omega
    exact Safe.ret fun h₂ hr => .expired hlt ((hcert hpos).mono hr.le le_rfl)
  · next hge =>
    refine Safe.ret fun h₂ hr => .kept fun homits f hf => UInt64.le_trans (hall homits f ?_) (UInt64.not_lt.1 hge)
    rw [Hist.store_eq_storeAt (hle₁.trans hr.le)]
    exact hf

/-- The event stands at its target, in a stream whose genesis is readable. -/
def Standing (X : Crates) (K : AtomicKeyspace) (stream : StreamId) (target : UInt64) (bytes : Bytes) (s : Store) : Prop :=
  StoresInline K (stream.logKey target) s bytes ∧
    ∃ config genesis, StoresInline K (stream.logKey 0) s config ∧ Envelope.decodeAndVerify X stream 0 config = some genesis

/-- Something was in the way of an event that stands at its target. -/
inductive Upset (X : Crates) (K : AtomicKeyspace) (B : Backend) (stream : StreamId) (target : UInt64) (bytes : Bytes)
    (h : History Call Res) (n : ℕ) : Prop where
  | failed (hf : B.faults)
  | invalid {q : UInt64} {e : KeyspaceError} (he : K.objectKey (stream.logKey q) = .error e)
  | unready (hs : h.Since n fun s => ¬ Standing X K stream target bytes s)

theorem Upset.mono {bytes : Bytes} (hu : Upset X K B stream target bytes h n) (hle : h ≤ h') (hm : m ≤ n) :
    Upset X K B stream target bytes h' m := by
  cases hu with
  | failed hf => exact .failed hf
  | invalid he => exact .invalid he
  | unready hs => exact .unready (hs.mono hle hm)

/-- How an append at a position since time `n` ended, whose event is `bytes` at its target. -/
inductive Outcome (X : Crates) (K : AtomicKeyspace) (B : Backend) (stream : StreamId) (target : UInt64) (bytes : Bytes)
    (receipt : AppendReceipt) (h : History Call Res) (n : ℕ) : Except AppendExpectedError AppendReceipt → Prop where
  | judged {m : ℕ} {res : Except AppendExpectedError AppendReceipt} (hm : m ≤ h.now)
      (hs : ∃ j, n ≤ j ∧ j ≤ m ∧ StoresInline K (stream.logKey target) (h.storeAt j) bytes)
      (hj : Judged K B stream target receipt h m res) : Outcome X K B stream target bytes receipt h n res
  | uncertain {e : AppendExpectedError} (he : e.effect = .possiblyCommitted) (hu : Upset X K B stream target bytes h n) :
      Outcome X K B stream target bytes receipt h n (.error e)
  | refused {e : AppendExpectedError} (he : e.effect = .notAttempted) (hu : Upset X K B stream target bytes h n) :
      Outcome X K B stream target bytes receipt h n (.error e)

/-- Where a call returns a receipt, or reports one as committed, its event was there, and a returned one is under no floor. -/
theorem Outcome.confirmed {bytes : Bytes} {r : AppendReceipt} {res : Except AppendExpectedError AppendReceipt}
    (hout : Outcome X K B stream target bytes receipt h n res)
    (hr : res = .ok r ∨ ∃ e, res = .error e ∧ e.effect = .committed r) :
    r = receipt ∧ ∃ j m, n ≤ j ∧ j ≤ m ∧ m ≤ h.now ∧ StoresInline K (stream.logKey target) (h.storeAt j) bytes ∧
      (res = .ok r → ¬ B.omits → ∀ f, K.Certified (h.storeAt m) stream.certPrefix f → f ≤ target) := by
  cases hout with
  | @judged m _ hm hs hj =>
    obtain ⟨j, hnj, hjm, hstored⟩ := hs
    refine ⟨?_, j, m, hnj, hjm, hm, hstored, fun hok homits f hf => ?_⟩
    · rcases hr with rfl | ⟨e, rfl, he⟩
      · cases hj
        rfl
      · cases hj with
        | unseen err => exact (AppendExpectedEffect.committed.inj he).symm
        | expired hlt hf => exact (AppendExpectedEffect.committed.inj he).symm
    · rw [hok] at hj
      cases hj with | kept hk => exact hk homits f hf
  | uncertain heffect hu =>
    rcases hr with hr | ⟨e, hr, he⟩
    · cases hr
    · cases hr
      rw [heffect] at he
      cases he
  | refused heffect hu =>
    rcases hr with hr | ⟨e, hr, he⟩
    · cases hr
    · cases hr
      rw [heffect] at he
      cases he

/-- Where nothing is in its way and no floor is above it, a call confirms its event. -/
theorem Outcome.unhindered {bytes : Bytes} {res : Except AppendExpectedError AppendReceipt}
    (hout : Outcome X K B stream target bytes receipt h n res) (hu : ¬ Upset X K B stream target bytes h n)
    (hfloor : ∀ j, n ≤ j → j ≤ h.now → ∀ f, K.Certified (h.storeAt j) stream.certPrefix f → f ≤ target) :
    res = .ok receipt ∨ ∃ err, res = .error (storage err (.committed receipt)) := by
  cases hout with
  | @judged m _ hm hs hj =>
    obtain ⟨j, hnj, hjm, -⟩ := hs
    cases hj with
    | kept hk => exact .inl rfl
    | unseen err => exact .inr ⟨err, rfl⟩
    | expired hlt hf =>
      obtain ⟨k, hmk, hk, hcert⟩ := hf
      exact absurd hlt (UInt64.not_lt.2 (hfloor k (hnj.trans (hjm.trans hmk)) hk _ hcert))
  | uncertain heffect hu' => exact absurd hu' hu
  | refused heffect hu' => exact absurd hu' hu

/-- An event that was seen at its target is judged. -/
theorem safe_judged {bytes : Bytes} (hS : S.exec = B.delivers) (hn : stream.value ≠ []) (hI : (floorLaw K).Inv B.delivers h)
    (hs : h.Since n (StoresInline K (stream.logKey target) · bytes)) :
    Safe S ((floorLaw K).Inv B.delivers) t (adjudicateCommitted K fuel stream target receipt maxObserved).run
      (fun r h' => Outcome X K B stream target bytes receipt h' n r) h := by
  refine (safe_adjudicateCommitted hS hn hI).imp fun r h' hle _ hj => ?_
  obtain ⟨j, hnj, hj', hstored⟩ := hs
  refine .judged (Hist.now_le hle) ⟨j, hnj, hj', ?_⟩ hj
  rwa [Hist.storeAt_mono hle hj']

/-- The failure of a call that may have written. -/
def Uncertain (r : Except AppendExpectedError AppendReceipt) : Prop := ∃ e, r = .error e ∧ e.effect = .possiblyCommitted

/-- A call whose put was not confirmed. -/
theorem safe_uncertain {bytes : Bytes} {p : Prog Req Resp (Except AppendExpectedError AppendReceipt)} (hS : S.exec = B.delivers)
    (hp : p.Every Req.Looks Uncertain) (hu : Upset X K B stream target bytes h n) :
    Safe S ((floorLaw K).Inv B.delivers) t p (fun r h' => Outcome X K B stream target bytes receipt h' n r) h := by
  refine (Law.safe_looks hS hp).imp ?_
  rintro r h' hle - ⟨e, rfl, he⟩
  exact .uncertain he (hu.mono hle le_rfl)

/-- The position is read back after a create that failed. -/
theorem safe_readBack (hS : S.exec = B.delivers) (hn : predecessor.streamId.value ≠ []) (hI : (floorLaw K).Inv B.delivers h)
    (hu : Upset X K B predecessor.streamId target envelope.encoded h n) (hnow : n ≤ h.now) :
    Safe S ((floorLaw K).Inv B.delivers) t (readBack X K fuel predecessor target envelope receipt maxObserved).run
      (fun r h' => Outcome X K B predecessor.streamId target envelope.encoded receipt h' n r) h := by
  have hlooks := Keyspace.looks_of_reads (K := K)
  refine Safe.seqAttempt hI (safe_getEvent hS) ?_
  rintro (e | _ | bytes) h₁ hle₁ hI₁ hread
  · refine safe_uncertain hS (every_attempt_of (every_observeFloor hlooks ..) ?_) (hu.mono hle₁ le_rfl)
    rintro (err | ⟨floor, _⟩)
    · cases err <;> exact ⟨_, rfl, rfl⟩
    · dsimp only
      split <;> exact ⟨_, rfl, rfl⟩
  · refine safe_uncertain hS (every_attempt_of (every_observeFloor hlooks ..) ?_) (hu.mono hle₁ le_rfl)
    rintro (err | ⟨floor, _⟩)
    · exact ⟨_, rfl, rfl⟩
    · dsimp only
      split <;> exact ⟨_, rfl, rfl⟩
  · dsimp only
    split
    · next hsame =>
      rw [hsame] at hread
      cases hread with | stores hv => ?_
      exact safe_judged hS hn hI₁ (hv.mono le_rfl hnow)
    · refine safe_uncertain hS (every_attempt_of (every_observeFloor hlooks ..) ?_) (hu.mono hle₁ le_rfl)
      rintro (err | ⟨floor, _⟩)
      · exact ⟨_, rfl, rfl⟩
      · dsimp only
        split
        · exact ⟨_, rfl, rfl⟩
        · refine ⟨_, rfl, ?_⟩
          unfold occupied
          split <;> rfl

/-- The target was absent: the call goes on to its one create, unless it refuses. -/
theorem safe_targetAbsent {genesis : Envelope} (hS : S.exec = B.delivers) (hn : predecessor.streamId.value ≠ [])
    (hI : (floorLaw K).Inv B.delivers h) (hshort : envelope.encoded.length ≤ Keyspace.inlineMax)
    (hu : Upset X K B predecessor.streamId target envelope.encoded h n) (hnow : n ≤ h.now) :
    Safe S ((floorLaw K).Inv B.delivers) t (targetAbsent X K fuel ids predecessor target envelope receipt genesis).run
      (fun r h' => Outcome X K B predecessor.streamId target envelope.encoded receipt h' n r) h := by
  have hlooks := Keyspace.looks_of_reads (K := K)
  have hrefused : ∀ {α : Type} {e : AppendExpectedError} {h₁ : History Call Res}, h ≤ h₁ → Refuses (.error e : Except AppendExpectedError α) →
      Outcome X K B predecessor.streamId target envelope.encoded receipt h₁ n (.error e) :=
    fun hle he => .refused (he _ rfl) (hu.mono hle le_rfl)
  refine Safe.seqE hI (Law.safe_looks hS (refuses_observeBefore hlooks _)) (fun e _ hle _ he => hrefused hle he) ?_
  rintro ⟨floor, maxObserved⟩ h₁ hle₁ hI₁ -
  refine Safe.seqE hI₁ (Law.safe_looks hS (refuses_check refuses_retired)) (fun e _ hle _ he => hrefused (hle₁.trans hle) he)
    fun _ h₂ hle₂ hI₂ _ => ?_
  have hle₂ := hle₁.trans hle₂
  refine Safe.seqE hI₂ (Law.safe_looks hS (refuses_verifyPredecessor hlooks genesis)) (fun e _ hle _ he => hrefused (hle₂.trans hle) he)
    fun _ h₃ hle₃ hI₃ _ => ?_
  have hle₃ := hle₂.trans hle₃
  refine Safe.seqE hI₃ (Law.safe_looks hS (refuses_probeLaterWitness hlooks)) (fun e _ hle _ he => hrefused (hle₃.trans hle) he)
    fun _ h₄ hle₄ hI₄ _ => ?_
  have hle₄ := hle₃.trans hle₄
  refine Safe.seqE hI₄ (Law.safe_looks hS (refuses_observeBefore hlooks _)) (fun e _ hle _ he => hrefused (hle₄.trans hle) he) ?_
  rintro ⟨floor, maxObserved⟩ h₅ hle₅ hI₅ -
  have hle₅ := hle₄.trans hle₅
  refine Safe.seqE hI₅ (Law.safe_looks hS (refuses_check refuses_retired)) (fun e _ hle _ he => hrefused (hle₅.trans hle) he)
    fun _ h₆ hle₆ hI₆ _ => ?_
  have hle₆ := hle₅.trans hle₆
  refine Safe.seqAttempt hI₆ (safe_creates hS lets_event hI₆ hshort) ?_
  rintro (e | u) h₇ hle₇ hI₇ hcreated
  · exact safe_readBack hS hn hI₇ (hu.mono (hle₆.trans hle₇) le_rfl) (hnow.trans (Hist.now_le (hle₆.trans hle₇)))
  · exact safe_judged hS hn hI₇ ((hcreated rfl).mono le_rfl (hnow.trans (Hist.now_le hle₆)))

theorem safe_verifiedGenesis (target : UInt64) (bytes : Bytes) (hS : S.exec = B.delivers) (hI : (floorLaw K).Inv B.delivers h) :
    Safe S ((floorLaw K).Inv B.delivers) t (verifiedGenesis X K stream).run
      (fun r h' => ∀ e, r = .error e → e.effect = .notAttempted ∧ Upset X K B stream target bytes h' h.now) h := by
  refine safe_mapErr_bind hI (safe_getEvent hS) (fun err h₁ _ _ hread e he => ?_) ?_
  · cases he
    cases hread with
    | invalid he => exact ⟨rfl, .invalid he⟩
    | failed hf => exact ⟨rfl, .failed hf⟩
  · rintro (_ | config) h₁ hle₁ hI₁ hread
    · cases hread with | absent ha => ?_
      refine Safe.ret fun h₂ hr e he => ?_
      cases he
      refine ⟨rfl, .unready ((ha.mono hr.le le_rfl).imp fun s hs => ?_)⟩
      rintro ⟨-, config, genesis, ⟨o, v, ho, -⟩, -⟩
      rw [hs] at ho
      cases ho
    · cases hread with | stores hv => ?_
      dsimp only
      cases hverify : verify X stream 0 config with
      | ok genesis => exact Safe.ret fun _ _ e he => by cases he
      | error err =>
        refine Safe.ret fun h₂ hr e he => ?_
        cases he
        refine ⟨rfl, .unready ((hv.mono hr.le le_rfl).imp fun s hs => ?_)⟩
        rintro ⟨-, config', genesis, hstored, hgenesis⟩
        rw [stores_unique hstored hs] at hgenesis
        rw [verify, hgenesis] at hverify
        cases hverify

variable {schemaId : SchemaId} {stableEventId : StableEventId} {payload : Bytes}

/-- An admitted append is on a stream with a name. -/
theorem admit_stream (h : admission X predecessor schemaId stableEventId payload = .ok (target, envelope)) :
    Grammatical predecessor.streamId.value := by
  unfold admission at h
  cases hv : validateSegment "stream id" predecessor.streamId.value with
  | error e =>
    rw [hv] at h
    cases h
  | ok u => exact validateSegment_ok.1 hv

/-- How an admitted append ends, and that it wrote only if its event was not standing all the time. -/
theorem safe_expected (hadmitted : admission X predecessor schemaId stableEventId payload = .ok (target, envelope)) (hS : S.exec = B.delivers)
    (hI : (floorLaw K).Inv B.delivers h) (hnow : n ≤ h.now) (hquiet : ∀ i r x, h.Asked i t r x → r.Looks) :
    Safe S ((floorLaw K).Inv B.delivers) t (appendExpected X K fuel ids predecessor schemaId stableEventId payload).run
      (fun r h' => Outcome X K B predecessor.streamId target envelope.encoded
          (receiptAt predecessor.streamId stableEventId target envelope.payloadSha256) h' n r ∧
        ((∀ i r x, h'.Asked i t r x → r.Looks) ∨
          h'.Since n fun s => ¬ Standing X K predecessor.streamId target envelope.encoded s)) h := by
  have hlooks := Keyspace.looks_of_reads (K := K)
  have hn : predecessor.streamId.value ≠ [] := (admit_stream hadmitted).nonempty
  have hshort : envelope.encoded.length ≤ Keyspace.inlineMax := encoded_short (admit_ok hadmitted).2
  unfold appendExpected
  refine safe_check (fun e he => ?_) ?_
  · rw [hadmitted] at he
    cases he
  rintro ⟨target', envelope'⟩ hadmitted'
  cases hadmitted.symm.trans (mapError_ok hadmitted')
  dsimp only
  generalize receiptAt predecessor.streamId stableEventId target envelope.payloadSha256 = receipt
  refine Safe.seqE hI (Safe.quiet (every_verifiedGenesis hlooks _) hquiet (safe_verifiedGenesis target envelope.encoded hS hI)) ?_
    fun genesis h₁ hle₁ hI₁ hgenesis => ?_
  · rintro e h₁ hle₁ - ⟨hrefused, hquiet₁⟩
    obtain ⟨he, hu⟩ := hrefused e rfl
    exact ⟨.refused he (hu.mono le_rfl hnow), .inl hquiet₁⟩
  have hnow₁ := hnow.trans (Hist.now_le hle₁)
  refine Safe.seqAttempt hI₁ (Safe.quiet (every_get (Keyspace.allowsReads_of hlooks) _) hgenesis.2 (safe_getEvent hS)) ?_
  rintro (e | _ | bytes) h₂ hle₂ hI₂ ⟨hread, hquiet₂⟩
  · have hu : Upset X K B predecessor.streamId target envelope.encoded h₂ n := by
      cases hread with
      | invalid he => exact .invalid he
      | failed hf => exact .failed hf
    refine (Safe.quiet (every_targetDamaged hlooks ..) hquiet₂ (Law.safe_looks hS (refused_targetDamaged hlooks _))).imp ?_
    rintro r h₃ hle₃ - ⟨⟨e, rfl, he⟩, hquiet₃⟩
    exact ⟨.refused he (hu.mono hle₃ le_rfl), .inl hquiet₃⟩
  · cases hread with | absent ha => ?_
    have ha := ha.mono le_rfl hnow₁
    have hunready : h₂.Since n fun s => ¬ Standing X K predecessor.streamId target envelope.encoded s := by
      refine ha.imp fun s hs => ?_
      rintro ⟨⟨o, v, ho, -⟩, -⟩
      rw [hs] at ho
      cases ho
    refine (safe_targetAbsent hS hn hI₂ hshort (.unready hunready) (hnow₁.trans (Hist.now_le hle₂))).imp fun r h₃ hle₃ _ hout => ?_
    exact ⟨hout, .inr (hunready.mono hle₃ le_rfl)⟩
  · cases hread with | stores hv => ?_
    have hv := hv.mono le_rfl hnow₁
    refine (Safe.quiet (every_targetOccupied hlooks ..) hquiet₂ (P := Req.Looks) (R := fun r h' =>
      Outcome X K B predecessor.streamId target envelope.encoded receipt h' n r) ?_).imp fun r h₃ _ _ hq => ⟨hq.1, .inl hq.2⟩
    by_cases hsame : bytes = envelope.encoded
    · rw [hsame] at hv
      unfold targetOccupied
      rw [if_pos hsame]
      exact safe_judged hS hn hI₂ hv
    · have hunready : h₂.Since n fun s => ¬ Standing X K predecessor.streamId target envelope.encoded s :=
        hv.imp fun s hs hstanding => hsame (stores_unique hs hstanding.1)
      refine (Law.safe_looks hS (refused_targetOccupied hlooks hsame)).imp ?_
      rintro r h₃ hle₃ - ⟨e, rfl, he⟩
      exact .refused he (.unready (hunready.mono hle₃ le_rfl))

end

/-! ### Appends at positions among other clients -/

/-- An append at a position, or a call of another client. -/
inductive OpenCall (Other : Type) where
  | ours (predecessor : EventRef) (schemaId : SchemaId) (stableEventId : StableEventId) (payload : Bytes) (ids : ℕ → Bytes)
  | other (o : Other)

/-- What a call returns. -/
abbrev OpenCall.Res {Other : Type} : OpenCall Other → Type
  | ours _ _ _ _ _ => Except AppendExpectedError AppendReceipt
  | other _ => Unit

/-- Any number of appends at positions, among clients of any kind. -/
def openSystem (X : Crates) (K : AtomicKeyspace) (B : Backend) (fuel : ℕ) {Other : Type} (others : Other → Prog Req Resp Unit) :
    System Store Req Resp (OpenCall Other) OpenCall.Res where
  prog
    | .ours predecessor schemaId stableEventId payload ids =>
      (appendExpected X K fuel ids predecessor schemaId stableEventId payload).run
    | .other o => others o
  exec := B.delivers
  init s := s.Tagged B ∧ (floorLaw K).Good s

section
variable {X : Crates} {K : AtomicKeyspace} {B : Backend} {fuel : ℕ} {ids : ℕ → Bytes} {predecessor : EventRef} {schemaId : SchemaId}
  {stableEventId : StableEventId} {payload : Bytes}

/-- What the requests of a call are: it writes only at the successor of its predecessor, where it puts its event if nothing is
there, and deletes only under an etag that its event may have been given. -/
def Touches (X : Crates) (K : AtomicKeyspace) (B : Backend) (predecessor : EventRef) (schemaId : SchemaId) (stableEventId : StableEventId)
    (payload : Bytes) (r : Req) : Prop :=
  r.Looks ∨ ∃ target envelope, admission X predecessor schemaId stableEventId payload = .ok (target, envelope) ∧
    Creates K (predecessor.streamId.logKey target) envelope.encoded (OwnTag B envelope.encoded) r

/-- The object at a path is the event of a call, at the successor of its predecessor. -/
def OwnEvent (X : Crates) (K : AtomicKeyspace) (predecessor : EventRef) (schemaId : SchemaId) (stableEventId : StableEventId)
    (payload : Bytes) (p : Str) (o : Object) : Prop :=
  ∃ target envelope i, admission X predecessor schemaId stableEventId payload = .ok (target, envelope) ∧
    p = K.root ++ predecessor.streamId.logKey target ∧ o.data = (ValueEnvelope.mk i 0 envelope.encoded).encode

/-- Where equal etags stand beside equal contents, a request of a call leaves every object but its own event as it is. -/
theorem Touches.keeps {r : Req} {x : Resp r} {s s' : Store} {p : Str} {o : Object} (hB : B.Sound) (hs : s.Tagged B)
    (hr : Touches X K B predecessor schemaId stableEventId payload r) (hx : B.delivers s r x s') (ho : s.lookup p = some o) :
    s'.lookup p = some o ∨ OwnEvent X K predecessor schemaId stableEventId payload p o := by
  rcases hr with hlooks | ⟨target, envelope, hadmitted, hcreates⟩
  · rw [Backend.looks_store hlooks hx]
    exact .inl ho
  cases hcreates with
  | read hr =>
    rw [Backend.looks_store (Keyspace.looks_of_reads r hr) hx]
    exact .inl ho
  | put hv i =>
    obtain rfl | ⟨ha, t, -, rfl⟩ := Backend.delivers_put hx
    · exact .inl ho
    · have hne : p ≠ pathFrom (K.root ++ predecessor.streamId.logKey target) := by
        rintro rfl
        rw [Store.accepts_none.1 ha] at ho
        cases ho
      rw [AList.lookup_insert_ne hne]
      exact .inl ho
  | evict e he =>
    obtain ⟨i, htag⟩ := he
    obtain rfl | ⟨⟨o', ho', rfl⟩, rfl⟩ := Backend.delivers_deleteIf hx
    · exact .inl ho
    · by_cases hp : p = K.root ++ predecessor.streamId.logKey target
      · subst hp
        cases ho'.symm.trans ho
        exact .inr ⟨target, envelope, i, hadmitted, rfl, hB _ _ _ (hs _ _ ho') htag⟩
      · rw [AList.lookup_erase_ne hp]
        exact .inl ho

theorem every_check_of {ε α β : Type} {P : Req → Prop} {x : Except ε α} {f : α → StoreOp ε β}
    (hf : ∀ a, x = .ok a → (f a).run.Every P fun _ => True) : (check x >>= f).run.Every P fun _ => True :=
  Prog.under_true.1 (under_check_of fun a ha => (hf a ha).under)

theorem under_touches : (appendExpected X K fuel ids predecessor schemaId stableEventId payload).run.Under B.Answers
    (Touches X K B predecessor schemaId stableEventId payload) fun _ => True := by
  have hlooks : ∀ r, K.Reads r → Touches X K B predecessor schemaId stableEventId payload r :=
    fun r hr => .inl (Keyspace.looks_of_reads r hr)
  refine under_check_of ?_
  rintro ⟨target, envelope⟩ hadmitted
  have hadmitted := mapError_ok hadmitted
  have hown : ∀ i e, B.Answers (.get (K.root ++ predecessor.streamId.logKey target))
      (.ok ((ValueEnvelope.mk i 0 envelope.encoded).encode, some e)) → OwnTag B envelope.encoded e := fun i e h => ⟨i, h _ _ rfl⟩
  refine Prog.under_bind_trivial (every_verifiedGenesis hlooks _).under fun genesis => Op.under_attempt_bind.2 ?_
  refine (every_get (Keyspace.allowsReads_of hlooks) _).under.imp ?_
  rintro (_ | _ | bytes) -
  · exact (every_targetDamaged hlooks ..).under
  · refine Prog.under_bind_trivial (every_observeBefore hlooks ..).under ?_
    rintro ⟨floor, maxObserved⟩
    refine Prog.under_bind_trivial every_check.under fun _ => Prog.under_bind_trivial (every_verifyPredecessor hlooks ..).under fun _ =>
      Prog.under_bind_trivial (every_probeLaterWitness hlooks ..).under fun _ =>
        Prog.under_bind_trivial (every_observeBefore hlooks ..).under ?_
    rintro ⟨floor, maxObserved⟩
    refine Prog.under_bind_trivial every_check.under fun _ => Op.under_attempt_bind.2 ?_
    refine ((under_creates hown (encoded_short (admit_ok hadmitted).2)).mono fun r hr => .inr ⟨target, envelope, hadmitted, hr⟩).imp ?_
    rintro (_ | _) -
    · exact (every_readBack hlooks ..).under
    · exact (every_adjudicateCommitted hlooks ..).under
  · exact (every_targetOccupied hlooks ..).under

/-- What a call has told when it returns. -/
structure Told {Call : Type} {Res : Call → Type} (X : Crates) (K : AtomicKeyspace) (B : Backend) (predecessor : EventRef) (schemaId : SchemaId)
    (stableEventId : StableEventId) (payload : Bytes) (t : ℕ) (h : History Call Res) (res : Except AppendExpectedError AppendReceipt) :
    Prop where
  quiet : Refused res → ∀ j r x, h.Asked j t r x → r.Looks
  denied : ∀ e, admission X predecessor schemaId stableEventId payload = .error e → Refused res
  ended : ∀ target envelope, admission X predecessor schemaId stableEventId payload = .ok (target, envelope) →
    Outcome X K B predecessor.streamId target envelope.encoded
      (receiptAt predecessor.streamId stableEventId target envelope.payloadSha256) h t res ∧
    ((∀ j r x, h.Asked j t r x → r.Looks) ∨ h.Since t fun s => ¬ Standing X K predecessor.streamId target envelope.encoded s)

def OpenCall.Told {Other : Type} {Call : Type} {Res : Call → Type} (X : Crates) (K : AtomicKeyspace) (B : Backend) (t : ℕ)
    (h : History Call Res) : (c : OpenCall Other) → c.Res → Prop
  | ours predecessor schemaId stableEventId payload _, res => Streams.Told X K B predecessor schemaId stableEventId payload t h res
  | other _, _ => True

theorem told_ours {Call : Type} {Res : Call → Type} {S : System Store Req Resp Call Res} {t : ℕ} {h : History Call Res}
    (hS : S.exec = B.delivers) (hI : (floorLaw K).Inv B.delivers h) (hnow : t ≤ h.now) (hquiet : ∀ i r x, h.Asked i t r x → r.Looks) :
    Safe S ((floorLaw K).Inv B.delivers) t (appendExpected X K fuel ids predecessor schemaId stableEventId payload).run
      (fun res h' => Told X K B predecessor schemaId stableEventId payload t h' res) h := by
  cases hadmitted : admission X predecessor schemaId stableEventId payload with
  | error e =>
    have hthrow : appendExpected X K fuel ids predecessor schemaId stableEventId payload = throw (storage e .notAttempted) := by
      unfold appendExpected
      rw [hadmitted]
      rfl
    rw [hthrow]
    refine Safe.ret fun h' hr => ⟨fun _ j r x ha => hquiet j r x (hr.asked ha), fun _ _ => ⟨_, rfl, rfl⟩, fun target envelope h => ?_⟩
    rw [hadmitted] at h
    cases h
  | ok a =>
    obtain ⟨target, envelope⟩ := a
    refine (Safe.until until_appendExpected hquiet (safe_expected hadmitted hS hI hnow hquiet)).imp ?_
    rintro res h' - - ⟨hended, hquiet'⟩
    refine ⟨?_, fun e h => ?_, fun target' envelope' h => ?_⟩
    · rintro ⟨e, rfl, he⟩
      exact hquiet'.resolve_left fun ha => ha e rfl he
    · rw [hadmitted] at h
      cases h
    · cases hadmitted.symm.trans h
      exact hended

/-- Every request of a call is one it may make, on a bucket whose etags are the backend's. -/
theorem touches_of_asked {Other : Type} {others : Other → Prog Req Resp Unit} {w : World Store Req Resp (OpenCall Other) OpenCall.Res}
    (hw : Reach (openSystem X K B fuel others) w) {i t : ℕ} {r : Req} {x : Resp r}
    (hstarted : w.hist.Started t (.ours predecessor schemaId stableEventId payload ids)) (ha : w.hist.Asked i t r x) :
    Touches X K B predecessor schemaId stableEventId payload r ∧ (w.hist.storeAt i).Tagged B ∧
      B.delivers (w.hist.storeAt i) r x (w.hist.storeAt (i + 1)) := by
  have hobeys := @Reach.obeys _ _ _ _ _ (openSystem X K B fuel others) w (Store.Tagged B) B.Answers
    (fun c r => ∀ predecessor schemaId stableEventId payload ids, c = .ours predecessor schemaId stableEventId payload ids →
      Touches X K B predecessor schemaId stableEventId payload r) (fun _ hs => hs.1) (fun c => ?_)
    (fun _ s r x s' hs _ hx => ⟨Backend.delivers_tagged hx hs, Backend.answers_of_delivers hs hx⟩) hw
  · obtain ⟨c, hc, htouches, htagged, hx⟩ := hobeys.asked ha
    exact ⟨htouches _ _ _ _ ids (hc.inj hstarted), htagged, hx⟩
  · cases c with
    | ours predecessor schemaId stableEventId payload ids =>
      refine under_touches.mono fun r hr predecessor' schemaId' stableEventId' payload' ids' h => ?_
      cases h
      exact hr
    | other o => exact ((Prog.every_true _).mono fun r _ _ _ _ _ _ h => by cases h).under

/-- A call has told what it tells when it returned. -/
theorem told_of_done {Other : Type} {others : Other → Prog Req Resp Unit} (hothers : ∀ o, KeepsFloors B K (others o))
    {w : World Store Req Resp (OpenCall Other) OpenCall.Res} (hw : Reach (openSystem X K B fuel others) w) {i t : ℕ}
    {res : Except AppendExpectedError AppendReceipt}
    (hd : w.hist.Done i t (.ours predecessor schemaId stableEventId payload ids) res) :
    ∃ h₁, Rely ((floorLaw K).Inv B.delivers) t h₁ w.hist ∧ h₁.now = i ∧ Told X K B predecessor schemaId stableEventId payload t h₁ res := by
  have hstart : ∀ h (c : OpenCall Other), (floorLaw K).Inv B.delivers h → (∀ i e, h.At i e → e.label.caller ≠ some h.now) →
      (floorLaw K).Inv B.delivers (h.push (.start c) h.store) ∧ Safe (openSystem X K B fuel others) ((floorLaw K).Inv B.delivers) h.now
        ((openSystem X K B fuel others).prog c) (fun res h' => c.Told X K B h.now h' res) (h.push (.start c) h.store) := by
    intro h c hI hfresh
    refine ⟨hI.start (floorLaw K).refl c, ?_⟩
    cases c with
    | other o => exact (Law.safe_of_every (Q := fun _ => True) rfl (fun s r hs hr => hr s hs) (hothers o).every).imp fun _ _ _ _ _ => trivial
    | ours predecessor schemaId stableEventId payload ids =>
      refine told_ours rfl (hI.start (floorLaw K).refl _) (Hist.now_le Hist.le_push) fun i r x ha => ?_
      -- it has not asked anything yet
      rcases ha.of_push with ⟨e, he, hl⟩ | ⟨-, hl⟩
      · exact absurd (by rw [hl]; rfl) (hfresh i e he)
      · cases hl
  obtain ⟨-, -, hdone⟩ := @Reach.sound _ _ _ _ _ (openSystem X K B fuel others) w ((floorLaw K).Inv B.delivers)
    (fun t c res h => c.Told X K B t h res) (fun s hs => .empty hs.2) hstart (fun h t c res hI _ => hI.done (floorLaw K).refl t c res) hw
  obtain ⟨e, he, hl⟩ := hd
  exact hdone i e t (.ours predecessor schemaId stableEventId payload ids) res he hl

/-- What an append at a position did is what its result tells. Whatever the answers to its requests are and whatever the others
do, as long as they leave the certificates and write no chunked events: it only reads, or creates its event at the successor
of its predecessor, and where equal etags stand beside equal contents no request of it changes or removes what is not that
event; where it reports that nothing was attempted it only read; where it returns a receipt, or reports one as
committed, that receipt names its own event, which was there at a moment of the call, and if it returned it then no floor was
above it at a moment behind; and if its event and a genesis are there all the time under no higher floor, it only reads, and
returns the receipt or reports it as committed. -/
theorem expected_effects {Other : Type} {others : Other → Prog Req Resp Unit} (hothers : ∀ o, KeepsFloors B K (others o))
    {w : World Store Req Resp (OpenCall Other) OpenCall.Res} (hw : Reach (openSystem X K B fuel others) w) :
    (∀ i t r x predecessor schemaId stableEventId payload ids, w.hist.Started t (.ours predecessor schemaId stableEventId payload ids) →
      w.hist.Asked i t r x → Touches X K B predecessor schemaId stableEventId payload r ∧
        (B.Sound → ∀ p o, (w.hist.storeAt i).lookup p = some o →
          (w.hist.storeAt (i + 1)).lookup p = some o ∨ OwnEvent X K predecessor schemaId stableEventId payload p o)) ∧
    ∀ i t predecessor schemaId stableEventId payload ids res,
      w.hist.Done i t (.ours predecessor schemaId stableEventId payload ids) res →
      ((∃ e, res = .error e ∧ e.effect = .notAttempted) → ∀ j r x, w.hist.Asked j t r x → r.Looks) ∧
      (∀ receipt, (res = .ok receipt ∨ ∃ e, res = .error e ∧ e.effect = .committed receipt) →
        ∃ target envelope, admission X predecessor schemaId stableEventId payload = .ok (target, envelope) ∧
          receipt = receiptAt predecessor.streamId stableEventId target envelope.payloadSha256 ∧
          ∃ j m, t ≤ j ∧ j ≤ m ∧ m ≤ i ∧
            StoresInline K (predecessor.streamId.logKey target) (w.hist.storeAt j) envelope.encoded ∧
            (res = .ok receipt → ¬ B.omits → ∀ f, K.Certified (w.hist.storeAt m) predecessor.streamId.certPrefix f → f ≤ target)) ∧
      ∀ target envelope, admission X predecessor schemaId stableEventId payload = .ok (target, envelope) → ¬ B.faults →
        (∀ q, ∃ path, K.objectKey (predecessor.streamId.logKey q) = .ok path) →
        (∀ j, t ≤ j → j ≤ i → Standing X K predecessor.streamId target envelope.encoded (w.hist.storeAt j) ∧
          ∀ f, K.Certified (w.hist.storeAt j) predecessor.streamId.certPrefix f → f ≤ target) →
        (∀ j r x, w.hist.Asked j t r x → r.Looks) ∧
          (res = .ok (receiptAt predecessor.streamId stableEventId target envelope.payloadSha256) ∨
            ∃ err, res = .error (storage err (.committed (receiptAt predecessor.streamId stableEventId target envelope.payloadSha256)))) := by
  constructor
  · intro i t r x predecessor schemaId stableEventId payload ids hstarted ha
    obtain ⟨htouches, htagged, hx⟩ := touches_of_asked hw hstarted ha
    exact ⟨htouches, fun hB p o ho => htouches.keeps hB htagged hx ho⟩
  intro i t predecessor schemaId stableEventId payload ids res hd
  obtain ⟨h₁, hrely, rfl, htold⟩ := told_of_done hothers hw hd
  have hle := hrely.le
  refine ⟨fun hr j r x ha => htold.quiet hr j r x (hrely.asked ha), ?_, ?_⟩
  · intro receipt hr
    cases hadmitted : admission X predecessor schemaId stableEventId payload with
    | error err =>
      obtain ⟨e', rfl, he'⟩ := htold.denied err hadmitted
      rcases hr with hr | ⟨e'', hr, heffect⟩
      · cases hr
      · cases hr
        rw [he'] at heffect
        cases heffect
    | ok a =>
      obtain ⟨target, envelope⟩ := a
      obtain ⟨hout, -⟩ := htold.ended target envelope hadmitted
      obtain ⟨hreceipt, j, m, htj, hjm, hm, hstored, hfloor⟩ := hout.confirmed hr
      refine ⟨target, envelope, rfl, hreceipt, j, m, htj, hjm, hm, ?_, ?_⟩
      · rwa [Hist.storeAt_mono hle (hjm.trans hm)]
      · rwa [Hist.storeAt_mono hle hm]
  · intro target envelope hadmitted hfaults hkeys hstands
    have hstanding : ∀ j, t ≤ j → j ≤ h₁.now → Standing X K predecessor.streamId target envelope.encoded (h₁.storeAt j) ∧
        ∀ f, K.Certified (h₁.storeAt j) predecessor.streamId.certPrefix f → f ≤ target := by
      intro j htj hj
      have := hstands j htj hj
      rwa [Hist.storeAt_mono hle hj] at this
    have hsteady : ¬ h₁.Since t fun s => ¬ Standing X K predecessor.streamId target envelope.encoded s := by
      rintro ⟨j, htj, hj, hnot⟩
      exact hnot (hstanding j htj hj).1
    have hready : ¬ Upset X K B predecessor.streamId target envelope.encoded h₁ t := by
      rintro (hf | @⟨q, e, he⟩ | hs)
      · exact hfaults hf
      · obtain ⟨path, hp⟩ := hkeys q
        rw [hp] at he
        cases he
      · exact hsteady hs
    obtain ⟨hout, hquiet⟩ := htold.ended target envelope hadmitted
    exact ⟨fun j r x ha => hquiet.resolve_right hsteady j r x (hrely.asked ha),
      hout.unhindered hready fun j htj hj => (hstanding j htj hj).2⟩

end

/-- A creation of a stream is such a call. -/
theorem keepsFloors_createStreamWithId {X : Crates} {K : AtomicKeyspace} {B : Backend} {fuel : ℕ} {ids : ℕ → Bytes} {stream : StreamId}
    {config : Bytes} : KeepsFloors B K (createStreamWithId X K fuel ids stream config).run := by
  have hlooks : ∀ r, K.Reads r → ∀ s, (floorLaw K).Good s → (floorLaw K).Lets B.delivers s r :=
    fun r hr s hs => lets_looks hs (Keyspace.looks_of_reads r hr)
  refine ⟨every_check_of fun _ _ => every_check_of fun genesis hg => ?_⟩
  refine Op.every_attempt_bind ((every_creates (encoded_short (mapError_ok hg))).mono fun r hr s hs => lets_event s r hs hr) ?_
  rintro (e | _)
  · cases e with
    | alreadyExists key =>
      exact Prog.every_bind_trivial (every_mapErr (every_get (Keyspace.allowsReads_of hlooks) _)) fun _ => every_check
    | _ => trivial
  · trivial

theorem keepsFloors_discard {α : Type} {K : AtomicKeyspace} {B : Backend} {p : Prog Req Resp α} (hp : KeepsFloors B K p) :
    KeepsFloors B K (p >>= fun _ => pure ()) := by
  constructor
  rw [Prog.every_bind]
  exact hp.every.imp fun _ _ => trivial

/-! ### An append, its retry and a rival -/

/-- The genesis of the one-letter stream. -/
def letterGenesis : EventRef :=
  match Envelope.genesis Serde.crates letterStream [] with
  | .ok genesis => genesis.identity
  | .error _ => ⟨letterStream, 0, ⟨[]⟩, []⟩

/-- Another client creates the one-letter stream. -/
def letterCreator (_ : Unit) : Prog Req Resp Unit :=
  (createStreamWithId Serde.crates Keyspace.letterSpace 9 (fun _ => []) letterStream []).run >>= fun _ => pure ()

/-- One event is appended behind the genesis, and again, and then another. -/
def letterAppends : List (OpenCall Unit) :=
  let append (id : Str) : OpenCall Unit := .ours letterGenesis ⟨"x".toList⟩ ⟨id⟩ [49] fun _ => []
  [.other (), append "e1".toList, append "e1".toList, append "e2".toList]

def letterOpen : World Store Req Resp (OpenCall Unit) OpenCall.Res :=
  letterAppends.foldl (fun w c => w.alone (openSystem Serde.crates Keyspace.letterSpace .honest 9 letterCreator).prog
    (Store.serve contentTag) c 30) ⟨.empty ∅, fun _ => none⟩

/-- The append that returns at a step, and its result. -/
def toldAt (h : History (OpenCall Unit) OpenCall.Res) (i : ℕ) : Option (ℕ × (AppendExpectedError ⊕ AppendReceipt)) :=
  match h.steps[i]? with
  | some ⟨.done t (.ours _ _ _ _ _) (.ok r), _, _⟩ => some (t, .inr r)
  | some ⟨.done t (.ours _ _ _ _ _) (.error e), _, _⟩ => some (t, .inl e)
  | _ => none

theorem done_of_toldAt {h : History (OpenCall Unit) OpenCall.Res} {i t : ℕ} {r : AppendExpectedError ⊕ AppendReceipt}
    (hr : toldAt h i = some (t, r)) : ∃ predecessor schemaId stableEventId payload ids,
      h.Done i t (.ours predecessor schemaId stableEventId payload ids) (r.elim .error .ok) := by
  unfold toldAt at hr
  split at hr
  · next t' predecessor schemaId stableEventId payload ids r' _ _ he =>
    cases hr
    exact ⟨predecessor, schemaId, stableEventId, payload, ids, _, he, rfl⟩
  · next t' predecessor schemaId stableEventId payload ids r' _ _ he =>
    cases hr
    exact ⟨predecessor, schemaId, stableEventId, payload, ids, _, he, rfl⟩
  · cases hr

theorem keepsFloors_letterCreator (o : Unit) : KeepsFloors .honest Keyspace.letterSpace (letterCreator o) := by
  unfold letterCreator
  exact keepsFloors_discard keepsFloors_createStreamWithId

theorem letterOpen_run :
    toldAt letterOpen.hist 15 = some (5, .inr (receiptAt letterStream ⟨"e1".toList⟩ 1 (sha256Hex Serde.crates [49]))) ∧
    toldAt letterOpen.hist 20 = some (16, .inr (receiptAt letterStream ⟨"e1".toList⟩ 1 (sha256Hex Serde.crates [49]))) ∧
    toldAt letterOpen.hist 25 = some (21, .inl (failed
      (.positionConflict letterStream 1 ⟨letterStream, 1, ⟨"e1".toList⟩, sha256Hex Serde.crates [49]⟩) .notAttempted)) := by
  decide +kernel

theorem reach_letterOpen : Reach (openSystem Serde.crates Keyspace.letterSpace .honest 9 letterCreator) letterOpen := by
  unfold letterOpen
  generalize letterAppends = calls
  have hinit : Reach (openSystem Serde.crates Keyspace.letterSpace .honest 9 letterCreator) ⟨.empty ∅, fun _ => none⟩ :=
    .init ⟨fun p o ho => (by cases ho), fun stream q o ho => by cases ho⟩
  generalize (⟨.empty ∅, fun _ => none⟩ : World Store Req Resp (OpenCall Unit) OpenCall.Res) = w at hinit ⊢
  induction calls generalizing w with
  | nil => exact hinit
  | cons c calls ih =>
    exact ih _ (hinit.alone Backend.delivers_honest c 30)

/-- The event that was appended was there, and the rival only read. -/
theorem expected_effects_letter : (∃ j m value, 5 ≤ j ∧ j ≤ m ∧ m ≤ 15 ∧
      StoresInline Keyspace.letterSpace (letterStream.logKey 1) (letterOpen.hist.storeAt j) value ∧
      ∀ f, Keyspace.letterSpace.Certified (letterOpen.hist.storeAt m) letterStream.certPrefix f → f ≤ 1) ∧
    ∀ j r x, letterOpen.hist.Asked j 21 r x → r.Looks := by
  obtain ⟨hfirst, -, hrival⟩ := letterOpen_run
  obtain ⟨-, htold⟩ := expected_effects keepsFloors_letterCreator reach_letterOpen
  constructor
  · obtain ⟨predecessor, schemaId, stableEventId, payload, ids, hd⟩ := done_of_toldAt hfirst
    obtain ⟨-, hconfirmed, -⟩ := htold _ _ _ _ _ _ _ _ hd
    obtain ⟨target, envelope, -, hreceipt, j, m, htj, hjm, hm, hstored, hfloor⟩ := hconfirmed _ (.inl rfl)
    have hstream : predecessor.streamId = letterStream := congrArg AppendReceipt.streamId hreceipt.symm
    have htarget : target = 1 := congrArg AppendReceipt.seq hreceipt.symm
    rw [hstream, htarget] at hstored hfloor
    exact ⟨j, m, _, htj, hjm, hm, hstored, hfloor rfl id⟩
  · obtain ⟨predecessor, schemaId, stableEventId, payload, ids, hd⟩ := done_of_toldAt hrival
    exact (htold _ _ _ _ _ _ _ _ hd).1 ⟨_, rfl, rfl⟩

end YeetzS3.Streams
