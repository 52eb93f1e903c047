import YeetzS3.Keyspace.Collection
import YeetzS3.Streams.Calls

/-!
# What a call on a stream knows

The parts of `append`, `trim`, `gc` and the reads under a law of the log, with any other calls in between: what they saw
of the log, and when. An append is followed through its snapshot, its scan and its allocation loop by a property `At` of the
position it tries next.
-/

namespace YeetzS3.Streams

open Conc
open Keyspace (AtomicKeyspace Key Got Shows FloorTold inlineBytes)

/-! ### Events in a bucket -/

/-- There is an object at position `seq`. -/
def StreamId.Present (stream : StreamId) (K : AtomicKeyspace) (s : Store) (seq : UInt64) : Prop :=
  s.lookup (K.root ++ stream.logKey seq) ≠ none

/-- The event at `seq` reads as `bytes`. -/
def StreamId.ReadsAs (stream : StreamId) (X : Crates) (K : AtomicKeyspace) (s : Store) (seq : UInt64) (bytes : Bytes) : Prop :=
  ∃ o, s.lookup (K.root ++ stream.logKey seq) = some o ∧ Shows X.toOutside (stream.logKey seq) o bytes

/-- `{stream}/trims/`. -/
def StreamId.certPrefix (stream : StreamId) : Str := stream.value ++ '/' :: ("trims".toList ++ ['/'])

theorem StreamId.ReadsAs.present {stream : StreamId} {X : Crates} {K : AtomicKeyspace} {s : Store} {seq : UInt64} {bytes : Bytes}
    (h : stream.ReadsAs X K s seq bytes) : stream.Present K s seq := by
  obtain ⟨o, ho, -⟩ := h
  rw [Present, ho]
  exact Option.some_ne_none o

/-- What a law of the log must let every operation on the stream do. -/
structure LogLaw (X : Crates) (K : AtomicKeyspace) (B : Backend) (stream : StreamId) (L : Law Store) : Prop where
  uncounted : ∀ seq, Keyspace.Uncounted K L (stream.logKey seq)
  tail : ∀ s, L.Good s → LetsPublish X K (L.Lets B.delivers s) stream.tailKey

section
variable {Call : Type} {Res : Call → Type} {S : System Store Req Resp Call Res} {B : Backend} {L : Law Store} {t : ℕ}
  {h h' : History Call Res} {X : Crates} {K : AtomicKeyspace} {stream : StreamId} {fuel n : ℕ} {ids : ℕ → Bytes}
  {ε ε' α β : Type}

/-! ### Checks and errors -/

theorem safe_check {x : Except ε α} {f : α → StoreOp ε β} {Q : Except ε β → History Call Res → Prop}
    (herr : ∀ e, x = .error e → ∀ h', Rely (L.Inv B.delivers) t h h' → Q (.error e) h')
    (hok : ∀ a, x = .ok a → Safe S (L.Inv B.delivers) t (f a).run Q h) :
    Safe S (L.Inv B.delivers) t (check x >>= f).run Q h := by
  cases x with
  | error e => exact Safe.ret (herr e rfl)
  | ok a => exact hok a rfl

/-- An operation under `map_err`. -/
theorem safe_mapErr {f : ε' → ε} {p : StoreOp ε' α} {P Q} (hI : L.Inv B.delivers h) (hp : Safe S (L.Inv B.delivers) t p.run P h)
    (herr : ∀ e h', h ≤ h' → L.Inv B.delivers h' → P (.error e) h' → Q (.error (f e)) h')
    (hok : ∀ a h', h ≤ h' → L.Inv B.delivers h' → P (.ok a) h' → Q (.ok a) h') :
    Safe S (L.Inv B.delivers) t (mapErr f p).run Q h := by
  refine Safe.seqAttempt hI hp.always ?_
  rintro (e | a) h₁ hle hI₁ hq
  · exact Safe.ret fun h₂ hr => herr e h₂ (hle.trans hr.le) hr.inv (hq h₂ hr)
  · exact Safe.ret fun h₂ hr => hok a h₂ (hle.trans hr.le) hr.inv (hq h₂ hr)

/-- An operation under `map_err`, and what follows it. -/
theorem safe_mapErr_bind {f : ε' → ε} {p : StoreOp ε' α} {g : α → StoreOp ε β} {P Q} (hI : L.Inv B.delivers h)
    (hp : Safe S (L.Inv B.delivers) t p.run P h)
    (herr : ∀ e h', h ≤ h' → L.Inv B.delivers h' → P (.error e) h' → Q (.error (f e)) h')
    (hok : ∀ a h', h ≤ h' → L.Inv B.delivers h' → P (.ok a) h' → Safe S (L.Inv B.delivers) t (g a).run Q h') :
    Safe S (L.Inv B.delivers) t (mapErr f p >>= g).run Q h := by
  unfold mapErr
  rw [bind_assoc]
  refine Safe.seqAttempt hI hp.always ?_
  rintro (e | a) h₁ hle hI₁ hq
  · exact Safe.ret fun h₂ hr => herr e h₂ (hle.trans hr.le) hr.inv (hq h₂ hr)
  · exact hok a h₁ hle hI₁ (hq h₁ (Rely.refl hI₁))

/-! ### The tail hint -/

/-- A verified hint names an event that was there. -/
theorem safe_verifiedTailHint (hS : S.exec = B.delivers) (hI : L.Inv B.delivers h) :
    Safe S (L.Inv B.delivers) t (verifiedTailHint X K stream) (fun r h' => ∀ hint, r = some hint →
      h'.Since h.now fun s => ∃ bytes, stream.ReadsAs X K s hint.highestValidatedDenseSeq bytes ∧
        hintConfirmed X stream hint bytes = true) h := by
  have hlooks : (readTailHint X K stream).run.Every Req.Looks fun _ => True :=
    every_readTailHint (Keyspace.allowsReads_of Keyspace.looks_of_reads) stream
  refine Safe.seq hI (Law.safe_looks hS hlooks) ?_
  rintro (e | _ | hint) h₁ hle₁ hI₁ -
  · exact Safe.ret fun _ _ => nofun
  · exact Safe.ret fun _ _ => nofun
  refine Safe.seq hI₁ (Keyspace.safe_get hS) ?_
  rintro (e | _ | bytes) h₂ hle₂ hI₂ hgot
  · exact Safe.ret fun _ _ => nofun
  · exact Safe.ret fun _ _ => nofun
  cases hgot with | shows hv => ?_
  refine Safe.ret fun h₃ hr₃ hint' hhint => ?_
  split at hhint
  · next hconf =>
    cases hhint
    exact (hv.mono hr₃.le (Hist.now_le hle₁)).imp fun s hs => ⟨bytes, hs, hconf⟩
  · cases hhint

/-- Moving the hint touches only the hint. -/
theorem safe_advanceTailHint (hS : S.exec = B.delivers) (hL : LogLaw X K B stream L) (landed : UInt64) (envelope : Envelope) :
    Safe S (L.Inv B.delivers) t (advanceTailHint X K fuel ids stream landed envelope) (fun _ _ => True) h :=
  Law.safe_of_every (P := fun r => ∀ s, L.Good s → L.Lets B.delivers s r) hS (fun s _ hs hr => hr s hs)
    (every_advanceTailHint (fun _ hr _ hs => lets_looks hs (Keyspace.looks_of_reads _ hr)) (fun sc hsc r hw s hs => hL.tail s hs sc hsc r hw) ..)

/-! ### The end of the log -/

/-- `seqOf` reads the keys of the stream's own events. -/
theorem seqOf_eq_some {key : Str} {seq : UInt64} : stream.seqOf key = some seq ↔ key = stream.logKey seq :=
  Keyspace.bind_parse_eq

theorem maxPage_sound {keys : List Str} {after : Option Str} {best : UInt64} {advanced : Bool} {after' best' advanced'}
    (h : maxPage stream keys (after, best, advanced) = (after', best', advanced')) :
    best' = best ∨ stream.logKey best' ∈ keys := by
  induction keys generalizing after best advanced with
  | nil =>
    cases h
    exact .inl rfl
  | cons key keys ih =>
    rw [maxPage] at h
    split at h
    · next seq hseq =>
      rcases ih h with h | h
      · rw [show max best seq = if best ≤ seq then seq else best from rfl] at h
        split at h
        · rw [h, ← seqOf_eq_some.1 hseq]
          exact .inr List.mem_cons_self
        · exact .inl h
      · exact .inr (List.mem_cons_of_mem _ h)
    · rcases ih h with h | h
      · exact .inl h
      · exact .inr (List.mem_cons_of_mem _ h)

/-- No event at or above `best` has been seen, or one at or above it was there. -/
def Witnessed (stream : StreamId) (K : AtomicKeyspace) (h : History Call Res) (n : ℕ) (best : UInt64) : Prop :=
  best = 0 ∨ ∃ q, best ≤ q ∧ h.Since n fun s => stream.Present K s q

theorem Witnessed.mono {best : UInt64} {m : ℕ} (hw : Witnessed stream K h n best) (hh : h ≤ h') (hm : m ≤ n) :
    Witnessed stream K h' m best := by
  rcases hw with hw | ⟨q, hq, hs⟩
  · exact .inl hw
  · exact .inr ⟨q, hq, hs.mono hh hm⟩

theorem present_of_mem_keysAfter {s : Store} {after : Option Str} {seq : UInt64} (hm : stream.logKey seq ∈ K.keysAfter s after) :
    stream.Present K s seq :=
  AtomicKeyspace.mem_keys_iff_lookup.1 (AtomicKeyspace.mem_keysAfter.1 hm).1

theorem safe_listLogMaxLoop (hS : S.exec = B.delivers) (hI : L.Inv B.delivers h) (hn : n ≤ h.now) {after : Option Str} {best : UInt64}
    (hbest : Witnessed stream K h n best) :
    Safe S (L.Inv B.delivers) t (listLogMaxLoop K stream fuel after best).run
      (fun r h' => ∀ best, r = .ok best → Witnessed stream K h' n best) h := by
  induction fuel generalizing h after best with
  | zero => trivial
  | succ fuel ih =>
    refine safe_mapErr_bind hI (Keyspace.safe_listAfter hS) (fun e _ _ _ _ => nofun) fun keys h₁ hle₁ hI₁ hlist => ?_
    cases hlist with | keys hk => ?_
    split
    · refine Safe.ret fun h₂ hr => ?_
      rintro _ ⟨⟩
      exact hbest.mono (hle₁.trans hr.le) le_rfl
    have hpage : ∀ {after' best' advanced'}, maxPage stream keys (after, best, false) = (after', best', advanced') →
        Witnessed stream K h₁ n best' := by
      intro after' best' advanced' hp
      rcases maxPage_sound hp with rfl | hmem
      · exact hbest.mono hle₁ le_rfl
      · exact .inr ⟨best', UInt64.le_refl _, (hk.mono le_rfl hn).imp fun s hs => present_of_mem_keysAfter (hs.1.subset hmem)⟩
    split
    · next hp =>
      refine Safe.ret fun h₂ hr => ?_
      rintro _ ⟨⟩
      exact (hpage hp).mono hr.le le_rfl
    · next hp => exact ih hI₁ (hn.trans (Hist.now_le hle₁)) (hpage hp)

theorem satSub_le (a b : UInt64) : satSub a b ≤ a := by
  unfold satSub
  split
  · next hle =>
    rw [UInt64.le_iff_toNat_le, UInt64.toNat_sub_of_le _ _ hle]
    exact Nat.sub_le _ _
  · exact UInt64.zero_le

/-- The largest event a list found, or a hint vouched for. -/
theorem safe_listLogMax (hS : S.exec = B.delivers) (hI : L.Inv B.delivers h) :
    Safe S (L.Inv B.delivers) t (listLogMax X K fuel stream).run
      (fun r h' => ∀ best, r = .ok best → Witnessed stream K h' h.now best) h := by
  refine Safe.seqLift hI (safe_verifiedTailHint hS hI) fun hint h₁ hle₁ hI₁ hhint => ?_
  refine safe_listLogMaxLoop hS hI₁ (Hist.now_le hle₁) ?_
  cases hint with
  | none => exact .inl rfl
  | some hint =>
    refine .inr ⟨hint.highestValidatedDenseSeq, satSub_le .., (hhint hint rfl).imp ?_⟩
    rintro s ⟨bytes, hb, -⟩
    exact hb.present

/-- The certified floor of a stream. -/
theorem safe_trimFloor (hS : S.exec = B.delivers) (hpfx : Keyspace.trimCertPrefix stream.value = .ok stream.certPrefix)
    (hcert : ∀ f, L.Stable fun s => K.Certified s stream.certPrefix f) (hI : L.Inv B.delivers h) :
    Safe S (L.Inv B.delivers) t (trimFloor K fuel stream).run (fun r h' => ∀ floor, r = .ok floor →
      FloorTold K B stream.certPrefix h' h.now (K.Certified h.store stream.certPrefix) floor) h :=
  safe_mapErr hI (Keyspace.safe_trimFloor hS hpfx hcert hI) (fun _ _ _ _ _ => nofun) fun floor h₁ _ _ hf => by
    rintro _ ⟨⟩
    exact hf floor rfl

end

/-! ### Append -/

/-- The envelope is short enough to be stored inline. -/
theorem encoded_short {X : Crates} {stream : StreamId} {seq : UInt64} {schemaId : SchemaId} {stableEventId : StableEventId}
    {payload : Bytes} {envelope : Envelope} (h : Envelope.encode X stream seq schemaId stableEventId payload = .ok envelope) :
    envelope.encoded.length ≤ Keyspace.inlineMax := by
  unfold Envelope.encode at h
  dsimp only at h
  split at h
  · cases h
  · next hle =>
    cases h
    have : maxEncodedEnvelopeBytes ≤ Keyspace.inlineMax := by decide
    dsimp only
    omega

section
variable {Call : Type} {Res : Call → Type} (X : Crates) (K : AtomicKeyspace) (B : Backend) (stream : StreamId)
  (schemaId : SchemaId) (stableEventId : StableEventId) (payload : Bytes) (n : ℕ)

/-- A different event was at `seq`. -/
def OtherAt (s : Store) (seq : UInt64) : Prop :=
  ∃ bytes landed, stream.ReadsAs X K s seq bytes ∧ Envelope.decodeAndVerify X stream seq bytes = some landed ∧
    landed.stableEventId ≠ stableEventId

/-- The same event was at `seq`. -/
def SameAt (s : Store) (seq : UInt64) (landed : Envelope) : Prop :=
  ∃ bytes, stream.ReadsAs X K s seq bytes ∧ Envelope.decodeAndVerify X stream seq bytes = some landed ∧
    landed.stableEventId = stableEventId ∧ landed.schemaId = schemaId ∧ landed.payload = payload

/-- What an append knows of the position it tries next: it is kept, lets the put through, and passes to the position after
one that holds a different event. -/
structure Guessed (L : Law Store) (At : UInt64 → History Call Res → Prop) : Prop where
  mono : ∀ g h h', h ≤ h' → L.Inv B.delivers h' → At g h → At g h'
  lets : ∀ g h, L.Inv B.delivers h → At g h → Keyspace.ValidPath (stream.logKey g) →
    ∀ envelope, Envelope.encode X stream g schemaId stableEventId payload = .ok envelope →
    L.Lets B.delivers h.store (.put (K.root ++ stream.logKey g) (inlineBytes 0 envelope.encoded) none)
  next : ∀ g h, L.Inv B.delivers h → At g h → g ≠ maxSeq → h.Since n (OtherAt X K stream stableEventId · g) → At (g + 1) h

/-- How an append of call `t` since time `n` got its receipt. -/
inductive Appended (At : UInt64 → History Call Res → Prop) (t : ℕ) (h : History Call Res) : AppendReceipt → Prop where
  /-- The scan found the event. -/
  | found {seq : UInt64} {landed : Envelope} (hpos : 0 < seq) (hs : h.Since n (SameAt X K stream schemaId stableEventId payload · seq landed)) :
      Appended At t h (receiptAt stream stableEventId seq landed.payloadSha256)
  /-- The put landed. -/
  | created {seq : UInt64} {envelope : Envelope} {i : ℕ} {y : Option Etag} {h₁ : History Call Res}
      (he : Envelope.encode X stream seq schemaId stableEventId payload = .ok envelope) (hat : At seq h₁) (h₁h : h₁ ≤ h)
      (hi : h₁.now ≤ i) (hn : n ≤ i)
      (ha : h.Asked i t (.put (K.root ++ stream.logKey seq) (inlineBytes 0 envelope.encoded) none) (.ok y)) :
      Appended At t h (receiptAt stream stableEventId seq envelope.payloadSha256)
  /-- The put was refused, and the event was there. -/
  | converged {seq : UInt64} {envelope : Envelope} {i : ℕ} {h₁ : History Call Res}
      (he : Envelope.encode X stream seq schemaId stableEventId payload = .ok envelope) (hat : At seq h₁) (h₁h : h₁ ≤ h)
      (hi : h₁.now ≤ i) (hn : n ≤ i)
      (ha : h.Asked i t (.put (K.root ++ stream.logKey seq) (inlineBytes 0 envelope.encoded) none) (.error .preconditionFailed))
      (hs : h.Since i (stream.ReadsAs X K · seq envelope.encoded)) :
      Appended At t h (receiptAt stream stableEventId seq envelope.payloadSha256)

end

section
variable {Call : Type} {Res : Call → Type} {S : System Store Req Resp Call Res} {B : Backend} {L : Law Store} {t : ℕ}
  {h h' : History Call Res} {X : Crates} {K : AtomicKeyspace} {stream : StreamId} {fuel n m : ℕ} {ids : ℕ → Bytes}
  {schemaId : SchemaId} {stableEventId : StableEventId} {payload : Bytes} {At : UInt64 → History Call Res → Prop}

theorem Appended.mono {receipt : AppendReceipt} (ha : Appended X K stream schemaId stableEventId payload n At t h receipt)
    (hh : h ≤ h') (hm : m ≤ n) : Appended X K stream schemaId stableEventId payload m At t h' receipt := by
  cases ha with
  | found hpos hs => exact .found hpos (hs.mono hh hm)
  | created he hat h₁h hi hn ha => exact .created he hat (h₁h.trans hh) hi (hm.trans hn) (ha.mono hh)
  | converged he hat h₁h hi hn ha hs => exact .converged he hat (h₁h.trans hh) hi (hm.trans hn) (ha.mono hh) (hs.mono hh le_rfl)

theorem verify_ok {seq : UInt64} {bytes : Bytes} {envelope : Envelope} (h : verify X stream seq bytes = .ok envelope) :
    Envelope.decodeAndVerify X stream seq bytes = some envelope := by
  unfold verify at h
  split at h
  · next landed hd =>
    cases h
    exact hd
  · cases h

theorem toNat_succ_of_lt {q : UInt64} (h : q.toNat + 1 < 2 ^ 64) : (q + 1).toNat = q.toNat + 1 := by
  rw [UInt64.toNat_add, UInt64.toNat_one, Nat.mod_eq_of_lt h]

theorem toNat_succ {p : UInt64} (hp : p ≠ maxSeq) : (p + 1).toNat = p.toNat + 1 := by
  have hmax : p.toNat ≠ maxSeq.toNat := fun h => hp (UInt64.toNat_inj.1 h)
  have hval : maxSeq.toNat = 18446744073709551615 := by decide
  have hlt := p.toNat_lt
  rw [UInt64.toNat_add, UInt64.toNat_one, Nat.mod_eq_of_lt]
  omega

theorem toNat_max {p q : UInt64} : (max p q).toNat = max p.toNat q.toNat := by
  rw [show max p q = if p ≤ q then q else p from rfl]
  split
  · next h =>
    rw [UInt64.le_iff_toNat_le] at h
    omega
  · next h =>
    rw [UInt64.le_iff_toNat_le] at h
    omega

/-- The scan returns the event it found. -/
theorem safe_appendScan (hS : S.exec = B.delivers) (hL : LogLaw X K B stream L) (hI : L.Inv B.delivers h) (hn : n ≤ h.now)
    (left : ℕ) (seq : UInt64) (hpos : left ≠ 0 → 0 < seq) (hend : seq.toNat + left ≤ 2 ^ 64) :
    Safe S (L.Inv B.delivers) t (appendScan X K fuel ids stream schemaId stableEventId payload left seq).run
      (fun r h' => ∀ receipt, r = .ok (some receipt) → Appended X K stream schemaId stableEventId payload n At t h' receipt) h := by
  induction left generalizing h seq with
  | zero => exact Safe.ret fun _ _ => nofun
  | succ left ih =>
    refine safe_mapErr_bind hI (Keyspace.safe_get hS) (fun _ _ _ _ _ => nofun) ?_
    rintro (_ | existing) h₁ hle₁ hI₁ hgot
    · exact Safe.ret fun _ _ => nofun
    cases hgot with | shows hv => ?_
    refine safe_check (fun _ _ _ _ => nofun) fun envelope henv => ?_
    split
    · refine ih hI₁ (hn.trans (Hist.now_le hle₁)) _ (fun hleft => ?_) ?_
      · rw [UInt64.lt_iff_toNat_lt, toNat_succ_of_lt (by omega)]
        exact Nat.succ_pos _
      · by_cases hlast : seq.toNat + 1 < 2 ^ 64
        · rw [toNat_succ_of_lt hlast]
          omega
        · rw [show left = 0 by omega]
          exact (seq + 1).toNat_lt.le
    next hid =>
    split
    · next hsame =>
      refine Safe.seqLift hI₁ (safe_advanceTailHint hS hL seq envelope) fun _ h₂ hle₂ hI₂ _ => ?_
      refine Safe.ret fun h₃ hr₃ receipt hreceipt => ?_
      cases hreceipt
      exact .found (hpos (Nat.succ_ne_zero left)) ((hv.mono (hle₂.trans hr₃.le) hn).imp fun s hs =>
        ⟨existing, hs, verify_ok henv, not_not.1 hid, hsame.1, hsame.2⟩)
    · exact Safe.ret fun _ _ => nofun

theorem reserved_ne_exists (key key' : Str) : Keyspace.ensureNotReservedKey key ≠ .error (.alreadyExists key') := by
  unfold Keyspace.ensureNotReservedKey
  repeat' split
  all_goals nofun

theorem invalid_ne_exists (key key' : Str) : K.objectKey key ≠ .error (.alreadyExists key') := by
  unfold Keyspace.AtomicKeyspace.objectKey
  cases hv : Keyspace.validateIdentifier "key" key with
  | error e =>
    rw [Keyspace.validate_error hv]
    nofun
  | ok u =>
    rw [Except.bind]
    split <;> nofun

/-- One attempt: a receipt, or a different event at the position. -/
theorem safe_appendAt {g : UInt64} (hS : S.exec = B.delivers) (hL : LogLaw X K B stream L)
    (hG : Guessed X K B stream schemaId stableEventId payload n L At) (hI : L.Inv B.delivers h) (hn : n ≤ h.now) (hat : At g h) :
    Safe S (L.Inv B.delivers) t (appendAt X K fuel ids stream schemaId stableEventId payload g).run
      (fun r h' => (∀ receipt, r = .ok (some receipt) → Appended X K stream schemaId stableEventId payload n At t h' receipt) ∧
        (r = .ok none → h'.Since n (OtherAt X K stream stableEventId · g))) h := by
  refine safe_check (fun _ _ _ _ => ⟨nofun, nofun⟩) fun envelope henv => ?_
  refine Safe.seqAttempt hI (Keyspace.safe_create (O := X.toOutside) hS (hL.uncounted g) hI (encoded_short henv)
    fun _ hv h₁ hle hI₁ => hG.lets g h₁ hI₁ (hG.mono g h h₁ hle hI₁ hat) hv envelope henv) ?_
  rintro (e | u) h₁ hle₁ hI₁ hcreated
  · cases e with
    | alreadyExists key =>
      refine safe_mapErr_bind hI₁ (Keyspace.safe_get hS) (fun _ _ _ _ _ => ⟨nofun, nofun⟩) ?_
      rintro (_ | bytes) h₂ hle₂ hI₂ hgot
      · exact Safe.ret fun _ _ => ⟨nofun, nofun⟩
      cases hgot with | shows hv => ?_
      dsimp only
      split
      · next hbytes =>
        refine Safe.seqLift hI₂ (safe_advanceTailHint hS hL g envelope) fun _ h₃ hle₃ hI₃ _ => ?_
        refine Safe.ret fun h₄ hr₄ => ⟨fun receipt hreceipt => ?_, nofun⟩
        cases hreceipt
        have hh : h₁ ≤ h₄ := hle₂.trans (hle₃.trans hr₄.le)
        cases hcreated with
        | @taken i hi ha =>
          refine .converged (i := i) henv hat (hle₁.trans hh) hi (hn.trans hi) (ha.mono hh) ?_
          rw [← hbytes]
          exact hv.mono (hle₃.trans hr₄.le) ha.lt.le
        | reserved he => exact absurd he (reserved_ne_exists _ _)
        | invalid he => exact absurd he (invalid_ne_exists _ _)
      · refine safe_check (fun _ _ _ _ => ⟨nofun, nofun⟩) fun landed hland => ?_
        split
        · exact Safe.ret fun _ _ => ⟨nofun, nofun⟩
        · next hid =>
          refine Safe.ret fun h₃ hr₃ => ⟨nofun, fun _ => ?_⟩
          exact (hv.mono hr₃.le (hn.trans (Hist.now_le hle₁))).imp fun s hs => ⟨bytes, landed, hs, verify_ok hland, hid⟩
    | _ => exact Safe.ret fun _ _ => ⟨nofun, nofun⟩
  · cases hcreated with | @landed i y hi ha => ?_
    refine Safe.seqLift hI₁ (safe_advanceTailHint hS hL g envelope) fun _ h₂ hle₂ hI₂ _ => ?_
    refine Safe.ret fun h₃ hr₃ => ⟨fun receipt hreceipt => ?_, nofun⟩
    cases hreceipt
    have hh : h₁ ≤ h₃ := hle₂.trans hr₃.le
    exact .created henv hat (hle₁.trans hh) hi (hn.trans hi) (ha.mono hh)

/-- The allocation loop. -/
theorem safe_appendLoop (hS : S.exec = B.delivers) (hL : LogLaw X K B stream L)
    (hG : Guessed X K B stream schemaId stableEventId payload n L At) (left : ℕ) {g : UInt64} (hI : L.Inv B.delivers h)
    (hn : n ≤ h.now) (hat : At g h) :
    Safe S (L.Inv B.delivers) t (appendLoop X K fuel ids stream schemaId stableEventId payload left g).run
      (fun r h' => ∀ receipt, r = .ok receipt → Appended X K stream schemaId stableEventId payload n At t h' receipt) h := by
  induction left generalizing h g with
  | zero =>
    unfold appendLoop
    refine Safe.seqE hI (safe_appendAt hS hL hG hI hn hat) (fun e _ _ _ _ receipt h => by cases h) ?_
    rintro (_ | receipt) h₁ hle₁ hI₁ hq
    · exact Safe.ret fun _ _ receipt h => by cases h
    · refine Safe.ret fun h₂ hr receipt' hreceipt => ?_
      cases hreceipt
      exact (hq.1 receipt rfl).mono hr.le le_rfl
  | succ left ih =>
    unfold appendLoop
    refine Safe.seqE hI (safe_appendAt hS hL hG hI hn hat) (fun e _ _ _ _ receipt h => by cases h) ?_
    rintro (_ | receipt) h₁ hle₁ hI₁ hq
    · dsimp only
      split
      · exact Safe.ret fun _ _ receipt h => by cases h
      · next hmax =>
        exact ih hI₁ (hn.trans (Hist.now_le hle₁)) (hG.next g h₁ hI₁ (hG.mono g h h₁ hle₁ hI₁ hat) hmax (hq.2 rfl))
    · refine Safe.ret fun h₂ hr receipt' hreceipt => ?_
      cases hreceipt
      exact (hq.1 receipt rfl).mono hr.le le_rfl

/-- What an append knows when it begins to scan. -/
structure Snapshot (K : AtomicKeyspace) (B : Backend) (stream : StreamId) (h₀ h : History Call Res) (listMax hintSeq floor : UInt64) :
    Prop where
  list : Witnessed stream K h h₀.now listMax
  hint : Witnessed stream K h h₀.now hintSeq
  floor : ∃ h₁ answer, h₀ ≤ h₁ ∧ h₁ ≤ h ∧ floor = answer.getD 0 ∧
    FloorTold K B stream.certPrefix h h₁.now (K.Certified h₁.store stream.certPrefix) answer

/-- A stream whose genesis key can be addressed has a valid id. -/
theorem trimCertPrefix_of_objectKey {seq : UInt64} {path : Str} (h : K.objectKey (stream.logKey seq) = .ok path) :
    Keyspace.trimCertPrefix stream.value = .ok stream.certPrefix := by
  have hv : Keyspace.validateIdentifier "key" (stream.logKey seq) = .ok () := by
    unfold Keyspace.AtomicKeyspace.objectKey at h
    cases hv : Keyspace.validateIdentifier "key" (stream.logKey seq) with
    | error e =>
      rw [hv] at h
      cases h
    | ok u => rfl
  obtain ⟨hlen, hpath⟩ := Keyspace.validate_ok.1 hv
  have hkey : stream.logKey seq = stream.value ++ '/' :: ("log/".toList ++ seqComponent seq) := by
    unfold StreamId.logKey StreamId.logPrefix
    rw [show "/log/".toList = '/' :: "log/".toList from rfl, List.append_assoc, List.cons_append]
  rw [hkey] at hlen hpath
  have hvalid : Keyspace.ValidPath stream.value := (Keyspace.validPath_append.1 hpath).1
  have hshort : Keyspace.byteLen stream.value ≤ 255 := by
    rw [Keyspace.byteLen_append] at hlen
    omega
  have hne : stream.value ≠ [] := by
    intro hnil
    rw [hnil] at hvalid
    exact Keyspace.not_validPath_nil hvalid
  rw [Keyspace.trimCertPrefix, if_neg hne, Keyspace.validate_ok.2 ⟨hshort, hvalid⟩]
  rfl

/-- The snapshot of an append: the end of the log by a list and by the hint. -/
def appendLook (X : Crates) (K : AtomicKeyspace) (fuel : ℕ) (stream : StreamId) : StreamOp (UInt64 × UInt64) := do
  match ← mapErr (mapKeyspace "append: genesis") (Keyspace.get X.toOutside K (stream.logKey 0)) with
  | none => throw (.streamNotFound stream)
  | some genesis => do
    let _ ← check (verify X stream 0 genesis)
    let listMax ← listLogMax X K fuel stream
    let hint ← ExceptT.lift (verifiedTailHint X K stream)
    pure (listMax, hint.elim 0 (·.highestValidatedDenseSeq))

/-- An append after its snapshot. -/
def appendLand (X : Crates) (K : AtomicKeyspace) (fuel : ℕ) (ids : ℕ → Bytes) (stream : StreamId) (schemaId : SchemaId)
    (stableEventId : StableEventId) (payload : Bytes) (listMax hintSeq : UInt64) : StreamOp AppendReceipt := do
  let floor ← trimFloor K fuel stream
  appendFrom X K fuel ids stream schemaId stableEventId payload listMax hintSeq (floor.getD 0)

/-- An append is its snapshot and what follows it. -/
theorem append_eq : append X K fuel ids stream schemaId stableEventId payload =
    appendLook X K fuel stream >>= fun r => appendLand X K fuel ids stream schemaId stableEventId payload r.1 r.2 := by
  unfold append appendLook
  rw [bind_assoc]
  refine bind_congr ?_
  rintro (_ | genesis)
  · rfl
  · simp only [bind_assoc, pure_bind]
    rfl

/-- The snapshot of an append sees events that were there. -/
theorem safe_appendLook (hS : S.exec = B.delivers) (hI : L.Inv B.delivers h) :
    Safe S (L.Inv B.delivers) t (appendLook X K fuel stream).run (fun r h' => ∀ listMax hintSeq, r = .ok (listMax, hintSeq) →
      Keyspace.trimCertPrefix stream.value = .ok stream.certPrefix ∧ Witnessed stream K h' h.now listMax ∧
        Witnessed stream K h' h.now hintSeq) h := by
  cases hp : K.objectKey (stream.logKey 0) with
  | error e =>
    unfold appendLook Keyspace.get
    rw [hp]
    exact Safe.ret fun _ _ => nofun
  | ok path =>
  refine safe_mapErr_bind hI (Keyspace.safe_get hS) (fun _ _ _ _ _ => nofun) ?_
  rintro (_ | genesis) h₁ hle₁ hI₁ -
  · exact Safe.ret fun _ _ => nofun
  refine safe_check (fun _ _ _ _ => nofun) fun _ _ => ?_
  refine Safe.seqE hI₁ (safe_listLogMax hS hI₁) (fun _ _ _ _ _ => nofun) fun listMax h₂ hle₂ hI₂ hlist => ?_
  refine Safe.seqLift hI₂ (safe_verifiedTailHint hS hI₂) fun hint h₃ hle₃ hI₃ hhint => ?_
  refine Safe.ret fun h₄ hr₄ => ?_
  rintro _ _ ⟨⟩
  refine ⟨trimCertPrefix_of_objectKey hp, (hlist listMax rfl).mono (hle₃.trans hr₄.le) (Hist.now_le hle₁), ?_⟩
  cases hint with
  | none => exact .inl rfl
  | some hint =>
    refine .inr ⟨hint.highestValidatedDenseSeq, UInt64.le_refl _, ((hhint hint rfl).mono hr₄.le (Hist.now_le (hle₁.trans hle₂))).imp ?_⟩
    rintro s ⟨bytes, hb, -⟩
    exact hb.present

/-- The rest of an append, from a base that the floor justifies. -/
theorem safe_appendLand (hS : S.exec = B.delivers) (hL : LogLaw X K B stream L)
    (hpfx : Keyspace.trimCertPrefix stream.value = .ok stream.certPrefix)
    (hcert : ∀ f, L.Stable fun s => K.Certified s stream.certPrefix f)
    (hG : Guessed X K B stream schemaId stableEventId payload n L At) (hI : L.Inv B.delivers h) (hn : n ≤ h.now)
    {listMax hintSeq : UInt64}
    (hbase : ∀ h₁ answer, h ≤ h₁ → L.Inv B.delivers h₁ → FloorTold K B stream.certPrefix h₁ h.now
      (K.Certified h.store stream.certPrefix) answer → max listMax hintSeq ≠ maxSeq →
      At (max (max listMax hintSeq + 1) (answer.getD 0)) h₁) :
    Safe S (L.Inv B.delivers) t (appendLand X K fuel ids stream schemaId stableEventId payload listMax hintSeq).run
      (fun r h' => ∀ receipt, r = .ok receipt → Appended X K stream schemaId stableEventId payload n At t h' receipt) h := by
  refine Safe.seqE hI (safe_trimFloor hS hpfx hcert hI) (fun _ _ _ _ _ => nofun) fun answer h₁ hle₁ hI₁ hfloor => ?_
  have hn₁ := hn.trans (Hist.now_le hle₁)
  unfold appendFrom
  dsimp only
  split
  · exact Safe.ret fun _ _ => nofun
  next hmax =>
  generalize hfrom : max (max (max hintSeq (satSub listMax idempotentScanWindow)) 1) (answer.getD 0) = scanFrom
  have hpos : 0 < scanFrom := by
    rw [UInt64.lt_iff_toNat_lt, ← hfrom, toNat_max, toNat_max, UInt64.toNat_zero, UInt64.toNat_one]
    omega
  have hend := (max listMax hintSeq).toNat_lt
  have hstart := scanFrom.toNat_lt
  refine Safe.seqE hI₁ (@safe_appendScan _ _ _ _ _ _ _ _ _ _ _ _ _ _ _ _ At hS hL hI₁ hn₁ _ _ (fun _ => hpos) (by omega)) (fun _ _ _ _ _ => nofun) ?_
  rintro (_ | receipt) h₂ hle₂ hI₂ hscan
  · have hat := hbase h₁ answer hle₁ hI₁ (hfloor answer rfl) hmax
    exact safe_appendLoop hS hL hG appendBudget hI₂ (hn₁.trans (Hist.now_le hle₂)) (hG.mono _ h₁ h₂ hle₂ hI₂ hat)
  · refine Safe.ret fun h₃ hr receipt' hreceipt => ?_
    cases hreceipt
    exact (hscan receipt rfl).mono hr.le le_rfl

/-- An append, from a base that the snapshot justifies. -/
theorem safe_append (hS : S.exec = B.delivers) (hL : LogLaw X K B stream L)
    (hcert : ∀ f, L.Stable fun s => K.Certified s stream.certPrefix f)
    (hG : Guessed X K B stream schemaId stableEventId payload h.now L At) (hI : L.Inv B.delivers h)
    (hbase : ∀ h₁ listMax hintSeq floor, h ≤ h₁ → L.Inv B.delivers h₁ → Snapshot K B stream h h₁ listMax hintSeq floor →
      max listMax hintSeq ≠ maxSeq → At (max (max listMax hintSeq + 1) floor) h₁) :
    Safe S (L.Inv B.delivers) t (append X K fuel ids stream schemaId stableEventId payload).run
      (fun r h' => ∀ receipt, r = .ok receipt → Appended X K stream schemaId stableEventId payload h.now At t h' receipt) h := by
  rw [append_eq]
  refine Safe.seqE hI (safe_appendLook hS hI) (fun _ _ _ _ _ => nofun) ?_
  rintro ⟨listMax, hintSeq⟩ h₁ hle₁ hI₁ hlook
  obtain ⟨hpfx, hlist, hhint⟩ := hlook listMax hintSeq rfl
  refine safe_appendLand hS hL hpfx hcert hG hI₁ (Hist.now_le hle₁) fun h₂ answer hle₂ hI₂ hfloor => ?_
  exact hbase h₂ listMax hintSeq _ (hle₁.trans hle₂) hI₂ ⟨hlist.mono hle₂ le_rfl, hhint.mono hle₂ le_rfl, h₁, answer, hle₁, hle₂, rfl, hfloor⟩

/-! ### The other writers -/

theorem mapError_ok {ε ε' α : Type} {x : Except ε α} {f : ε → ε'} {a : α} (h : x.mapError f = .ok a) : x = .ok a := by
  cases x with
  | error e => cases h
  | ok b =>
    cases h
    rfl

/-- What the admission of an append at a position computes. -/
theorem admit_ok {predecessor : EventRef} {targetSeq : UInt64} {envelope : Envelope}
    (h : admission X predecessor schemaId stableEventId payload = .ok (targetSeq, envelope)) :
    checkedSucc predecessor.seq = some targetSeq ∧
      Envelope.encode X predecessor.streamId targetSeq schemaId stableEventId payload = .ok envelope := by
  unfold admission at h
  simp only [bind, Except.bind, throw, throwThe, MonadExceptOf.throw, pure, Except.pure] at h
  repeat' split at h
  all_goals cases h
  next hsucc henv => exact ⟨hsucc, henv⟩

/-- A predecessor that was verified is the genesis or was there. -/
theorem safe_verifyPredecessor {predecessor : EventRef} {genesis : Envelope} {targetSeq : UInt64} {maxObserved : Option UInt64}
    (hS : S.exec = B.delivers) (hI : L.Inv B.delivers h) :
    Safe S (L.Inv B.delivers) t (verifyPredecessor X K fuel predecessor genesis targetSeq maxObserved).run
      (fun r h' => r = .ok () → predecessor.seq = 0 ∨ h'.Since h.now (predecessor.streamId.Present K · predecessor.seq)) h := by
  unfold verifyPredecessor
  split
  · next hz => exact (Law.safe_looks hS every_check).imp fun _ _ _ _ _ _ => .inl hz
  refine safe_mapErr_bind hI (Keyspace.safe_get hS) (fun _ _ _ _ _ => nofun) ?_
  rintro (_ | bytes) h₁ hle₁ hI₁ hgot
  · refine Safe.seqE hI₁ (Law.safe_looks (Q := fun _ => True) hS (every_observeBefore Keyspace.looks_of_reads ..))
      (fun _ _ _ _ _ => nofun) ?_
    rintro ⟨floor, _⟩ h₂ - - -
    exact safe_check (fun _ _ _ _ => nofun) fun _ _ => Safe.ret fun _ _ => nofun
  · cases hgot with | shows hv => ?_
    refine safe_check (fun _ _ _ _ => nofun) fun envelope _ => ?_
    refine (Law.safe_looks hS every_check).imp fun _ h₂ hle₂ _ _ _ => .inr ((hv.mono hle₂ le_rfl).imp fun s hs => ?_)
    exact StreamId.ReadsAs.present hs

/-- An append at a position makes its one put after its predecessor was verified. -/
theorem safe_appendExpected {predecessor : EventRef} (hS : S.exec = B.delivers)
    (hcount : ∀ seq, Keyspace.Uncounted K L (predecessor.streamId.logKey seq)) (hI : L.Inv B.delivers h)
    (hlet : ∀ h₁ targetSeq envelope, h ≤ h₁ → L.Inv B.delivers h₁ →
      (predecessor.seq = 0 ∨ h₁.Since h.now (predecessor.streamId.Present K · predecessor.seq)) →
      admission X predecessor schemaId stableEventId payload = .ok (targetSeq, envelope) →
      Keyspace.ValidPath (predecessor.streamId.logKey targetSeq) →
      L.Lets B.delivers h₁.store (.put (K.root ++ predecessor.streamId.logKey targetSeq) (inlineBytes 0 envelope.encoded) none)) :
    Safe S (L.Inv B.delivers) t (appendExpected X K fuel ids predecessor schemaId stableEventId payload).run (fun _ _ => True) h := by
  have hlooks := Keyspace.looks_of_reads (K := K)
  refine safe_check (fun _ _ _ _ => trivial) ?_
  rintro ⟨targetSeq, envelope⟩ hadmit
  have hshort : envelope.encoded.length ≤ Keyspace.inlineMax := encoded_short (admit_ok (mapError_ok hadmit)).2
  refine Safe.seqE hI (Law.safe_looks hS (every_verifiedGenesis hlooks _)) (fun _ _ _ _ _ => trivial) fun genesis h₁ hle₁ hI₁ _ => ?_
  refine Safe.seqAttempt hI₁ (Law.safe_looks hS (every_get (Keyspace.allowsReads_of hlooks) _)) ?_
  rintro (e | _ | bytes) h₂ hle₂ hI₂ -
  · exact Law.safe_looks hS (every_targetDamaged hlooks ..)
  swap
  · exact Law.safe_looks hS (every_targetOccupied hlooks ..)
  refine Safe.seqE hI₂ (Law.safe_looks hS (every_observeBefore hlooks ..)) (fun _ _ _ _ _ => trivial) ?_
  rintro ⟨floor, maxObserved⟩ h₃ hle₃ hI₃ -
  refine safe_check (fun _ _ _ _ => trivial) fun _ _ => ?_
  refine Safe.seqE hI₃ (safe_verifyPredecessor hS hI₃) (fun _ _ _ _ _ => trivial) fun _ h₄ hle₄ hI₄ hpred => ?_
  refine Safe.seqE hI₄ (Law.safe_looks hS (every_probeLaterWitness hlooks ..)) (fun _ _ _ _ _ => trivial) fun _ h₅ hle₅ hI₅ _ => ?_
  refine Safe.seqE hI₅ (Law.safe_looks hS (every_observeBefore hlooks ..)) (fun _ _ _ _ _ => trivial) ?_
  rintro ⟨floor, maxObserved⟩ h₆ hle₆ hI₆ -
  refine safe_check (fun _ _ _ _ => trivial) fun _ _ => ?_
  have h₀₃ := hle₁.trans (hle₂.trans hle₃)
  have h₄₆ := hle₅.trans hle₆
  refine Safe.seqAttempt hI₆ (Keyspace.safe_create (O := X.toOutside) hS (hcount targetSeq) hI₆ hshort
    fun _ hv h₇ hle₇ hI₇ => hlet h₇ targetSeq envelope (h₀₃.trans (hle₄.trans (h₄₆.trans hle₇))) hI₇ ?_ (mapError_ok hadmit) hv) ?_
  · exact (hpred rfl).imp_right fun hs => hs.mono (h₄₆.trans hle₇) (Hist.now_le h₀₃)
  · rintro (e | u) h₇ hle₇ hI₇ -
    · exact Law.safe_looks hS (every_readBack hlooks ..)
    · exact Law.safe_looks hS (every_adjudicateCommitted hlooks ..)

/-- A trim creates a certificate at most one behind an event that was there. -/
theorem safe_trim {firstRetained : UInt64} (hS : S.exec = B.delivers) (hI : L.Inv B.delivers h)
    (hlet : ∀ h₁ logEnd, h ≤ h₁ → L.Inv B.delivers h₁ → Witnessed stream K h₁ h.now logEnd → firstRetained ≠ 0 →
      firstRetained ≤ logEnd + 1 → Keyspace.ValidPath (stream.certPrefix ++ seqComponent firstRetained) →
      L.Lets B.delivers h₁.store (.put (K.root ++ (stream.certPrefix ++ seqComponent firstRetained)) Keyspace.certificateBytes none)) :
    Safe S (L.Inv B.delivers) t (trim X K fuel stream firstRetained).run (fun _ _ => True) h := by
  unfold trim
  split
  · exact Safe.ret fun _ _ => trivial
  next hz =>
  cases hp : K.objectKey (stream.logKey 0) with
  | error e =>
    unfold Keyspace.get
    rw [hp]
    exact Safe.ret fun _ _ => trivial
  | ok path =>
  have hpfx := trimCertPrefix_of_objectKey hp
  refine safe_mapErr_bind hI (Keyspace.safe_get hS) (fun _ _ _ _ _ => trivial) ?_
  rintro (_ | genesis) h₁ hle₁ hI₁ -
  · exact Safe.ret fun _ _ => trivial
  refine Safe.seqE hI₁ (safe_listLogMax hS hI₁) (fun _ _ _ _ _ => trivial) fun listMax h₂ hle₂ hI₂ hlist => ?_
  refine Safe.seqLift hI₂ (safe_verifiedTailHint hS hI₂) fun hint h₃ hle₃ hI₃ hhint => ?_
  dsimp only
  split
  · exact Safe.ret fun _ _ => trivial
  next hend =>
  have hwitness : Witnessed stream K h₃ h.now (max listMax (hint.elim 0 (·.highestValidatedDenseSeq))) := by
    have hlist := (hlist listMax rfl).mono hle₃ (Hist.now_le hle₁)
    have hhint' : Witnessed stream K h₃ h.now (hint.elim 0 (·.highestValidatedDenseSeq)) := by
      cases hint with
      | none => exact .inl rfl
      | some hint =>
        refine .inr ⟨hint.highestValidatedDenseSeq, UInt64.le_refl _, ((hhint hint rfl).mono le_rfl (Hist.now_le (hle₁.trans hle₂))).imp ?_⟩
        rintro s ⟨bytes, hb, -⟩
        exact hb.present
    generalize hint.elim 0 (·.highestValidatedDenseSeq) = hintSeq at hhint'
    rw [show max listMax hintSeq = if listMax ≤ hintSeq then hintSeq else listMax from rfl]
    split
    · exact hhint'
    · exact hlist
  refine safe_mapErr hI₃ (Law.safe_of_every_from (Q := fun _ => True) hS ?_ (Keyspace.asks_proposeTrim (O := X.toOutside) ..))
    (fun _ _ _ _ _ => trivial) fun _ _ _ _ _ => trivial
  rintro h₄ r hle₄ hI₄ (hr | hw)
  · exact lets_looks hI₄.state (Keyspace.looks_of_reads r hr)
  · cases hw with
    | control hc => cases hc
    | chunk hc => cases hc
    | evict hc => cases hc
    | delete hc => cases hc
    | certify hs hv =>
      rw [hpfx] at hs
      cases hs
      exact hlet h₄ _ (hle₁.trans (hle₂.trans (hle₃.trans hle₄))) hI₄ (hwitness.mono hle₄ le_rfl) hz (UInt64.not_lt.1 hend) hv

theorem valid_of_mirror {r a b : Str} (h : Keyspace.ValidPath ((r ++ '/' :: a) ++ b)) : Keyspace.ValidPath (a ++ b) := by
  rw [List.append_assoc, List.cons_append, Keyspace.validPath_append] at h
  exact h.2

/-- A stream without a name has no keys to sweep. -/
theorem not_valid_swept {pfx : Str} {seq : UInt64} (hn : stream.value = []) (hp : pfx ∈ Keyspace.sweptPrefixes stream.logPrefix) :
    ¬ Keyspace.ValidPath (pfx ++ seqComponent seq) := by
  have hkey : stream.logPrefix ++ seqComponent seq = [] ++ '/' :: ("log/".toList ++ seqComponent seq) := by
    unfold StreamId.logPrefix
    rw [hn]
    rfl
  have hlog : ¬ Keyspace.ValidPath (stream.logPrefix ++ seqComponent seq) := by
    rw [hkey, Keyspace.validPath_append]
    exact fun h => Keyspace.not_validPath_nil h.1
  simp only [Keyspace.sweptPrefixes, List.mem_cons, List.not_mem_nil, or_false] at hp
  rcases hp with rfl | rfl | rfl
  · exact hlog
  · unfold Keyspace.tombstoneKey
    generalize "tombstones".toList = r
    exact fun h => hlog (valid_of_mirror h)
  · unfold Keyspace.incarnationKey
    generalize "incarnations".toList = r
    exact fun h => hlog (valid_of_mirror h)

theorem trimCertPrefix_of_ne_nil {certPrefix : Str} (hn : stream.value ≠ [])
    (h : Keyspace.trimCertPrefix stream.value = .ok certPrefix) : certPrefix = stream.certPrefix := by
  rw [Keyspace.trimCertPrefix, if_neg hn] at h
  cases hv : Keyspace.validateIdentifier "trim scope" stream.value with
  | error e =>
    rw [hv] at h
    cases h
  | ok u =>
    rw [hv] at h
    exact (Except.ok.inj h).symm

/-- A collection deletes only below a certified floor. -/
theorem safe_gc (hS : S.exec = B.delivers) (hcert : ∀ f, L.Stable fun s => K.Certified s stream.certPrefix f)
    (hI : L.Inv B.delivers h)
    (hlet : ∀ s floor pfx seq, L.Good s → K.Certified s stream.certPrefix floor → pfx ∈ Keyspace.sweptPrefixes stream.logPrefix →
      0 < seq → seq < floor → Keyspace.ValidPath (pfx ++ seqComponent seq) →
      L.Lets B.delivers s (.delete (K.root ++ (pfx ++ seqComponent seq)))) :
    Safe S (L.Inv B.delivers) t (gc K fuel stream).run (fun _ _ => True) h := by
  have hbelow : ∀ floor h₁, (stream.value ≠ [] → ∀ h₂, h₁ ≤ h₂ → L.Inv B.delivers h₂ → K.Certified h₂.store stream.certPrefix floor) →
      L.Inv B.delivers h₁ → Safe S (L.Inv B.delivers) t
        (mapErr (mapKeyspace "gc: delete_below") (Keyspace.deleteBelow K fuel stream.value stream.logPrefix floor)).run (fun _ _ => True) h₁ := by
    intro floor h₁ hfloor hI₁
    refine safe_mapErr hI₁ (Law.safe_of_every_from (Q := fun _ => True) hS ?_ (Keyspace.asks_deleteBelow (O := Keyspace.plain) ..))
      (fun _ _ _ _ _ => trivial) fun _ _ _ _ _ => trivial
    rintro h₂ r hle₂ hI₂ (hr | hw)
    · exact lets_looks hI₂.state (Keyspace.looks_of_reads r hr)
    · cases hw with
      | control hc => cases hc
      | chunk hc => cases hc
      | evict hc => cases hc
      | delete hc => cases hc
      | sweep hp h0 hlt hv =>
        have hn : stream.value ≠ [] := fun hn => not_valid_swept hn hp hv
        exact hlet _ floor _ _ hI₂.state (hfloor hn h₂ hle₂ hI₂) hp h0 hlt hv
  cases hpfx : Keyspace.trimCertPrefix stream.value with
  | error e =>
    unfold gc trimFloor Keyspace.trimFloor
    rw [hpfx]
    exact Safe.ret fun _ _ => trivial
  | ok certPrefix =>
  by_cases hn : stream.value = []
  · refine Safe.seqE hI (Law.safe_looks hS (every_trimFloor (Keyspace.allowsReads_of Keyspace.looks_of_reads) _))
      (fun _ _ _ _ _ => trivial) ?_
    rintro (_ | floor) h₁ - hI₁ -
    · exact Safe.ret fun _ _ => trivial
    · exact hbelow floor h₁ (fun h => absurd hn h) hI₁
  · rw [trimCertPrefix_of_ne_nil hn hpfx] at hpfx
    refine Safe.seqE hI (safe_trimFloor hS hpfx hcert hI) (fun _ _ _ _ _ => trivial) ?_
    rintro (_ | floor) h₁ - hI₁ hfloor
    · exact Safe.ret fun _ _ => trivial
    · refine hbelow floor h₁ (fun _ h₂ hle₂ hI₂ => ?_) hI₁
      exact (hcert floor).since hI₂ (((hfloor _ rfl).sound floor rfl).mono hle₂ le_rfl)

end

end YeetzS3.Streams
