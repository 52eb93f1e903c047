import YeetzS3.Keyspace.Landed
import YeetzS3.Streams.Migration

/-!
# The calls on streams

Every public operation of `Streams`, and the requests each of them may make (`StreamCall.asks`): reads of the keyspace,
and the writes of the keyspace operations it is made of. An operation publishes only at keys of its own stream.
-/

namespace YeetzS3.Streams

open Conc
open Keyspace (AtomicKeyspace SpaceCall Key TrimState DeleteBelowReport get getWithEtag create compareExchange)

/-- The calls on streams. One that publishes draws the commit ids it may need. -/
inductive StreamCall where
  | createStream (minted : StreamId) (config : Bytes) (ids : ℕ → Bytes)
  | createStreamWithId (stream : StreamId) (config : Bytes) (ids : ℕ → Bytes)
  | readConfig (stream : StreamId)
  | trimFloor (stream : StreamId)
  | append (stream : StreamId) (schemaId : SchemaId) (stableEventId : StableEventId) (payload : Bytes) (ids : ℕ → Bytes)
  | appendExpected (predecessor : EventRef) (schemaId : SchemaId) (stableEventId : StableEventId) (payload : Bytes)
      (ids : ℕ → Bytes)
  | read (stream : StreamId) (afterSeq : UInt64) (limit : ℕ) (ids : ℕ → Bytes)
  | readEvent (stream : StreamId) (seq : UInt64)
  | readRange (stream : StreamId) (afterSeq throughSeq : UInt64) (limit : ℕ)
  | readCursor (stream : StreamId) (consumer : Str)
  | advanceCursor (stream : StreamId) (consumer : Str) (targetSeq : UInt64) (ids : ℕ → Bytes)
  | trim (stream : StreamId) (firstRetained : UInt64)
  | gc (stream : StreamId)
  | migrateLog (stream : StreamId) (entries : List MigrationEntry) (ids : ℕ → Bytes)
  | writeMigrationSeal (stream : StreamId) (value : MigrationSeal) (ids : ℕ → Bytes)
  | readMigrationSeal (stream : StreamId)

namespace StreamCall

/-- The stream a call is on. -/
def stream : StreamCall → StreamId
  | createStream stream _ _ | createStreamWithId stream _ _ | readConfig stream | trimFloor stream | append stream _ _ _ _
  | read stream _ _ _ | readEvent stream _ | readRange stream _ _ _ | readCursor stream _ | advanceCursor stream _ _ _
  | trim stream _ | gc stream | migrateLog stream _ _ | writeMigrationSeal stream _ _ | readMigrationSeal stream => stream
  | appendExpected predecessor _ _ _ _ => predecessor.streamId

/-- What a call returns. -/
abbrev Res : StreamCall → Type
  | createStream _ _ _ => Except StreamsError StreamId
  | createStreamWithId _ _ _ => Except CreateStreamError CreateStreamOutcome
  | readConfig _ => Except StreamsError (Option Bytes)
  | trimFloor _ => Except StreamsError (Option UInt64)
  | append _ _ _ _ _ => Except StreamsError AppendReceipt
  | appendExpected _ _ _ _ _ => Except AppendExpectedError AppendReceipt
  | read _ _ _ _ => Replay
  | readEvent _ _ => Except StreamsError Envelope
  | readRange _ _ _ _ => Except StreamsError RangePage
  | readCursor _ _ => Except StreamsError (Option Cursor)
  | advanceCursor _ _ _ _ => Except StreamsError Cursor
  | trim _ _ => Except StreamsError TrimState
  | gc _ => Except StreamsError DeleteBelowReport
  | migrateLog _ _ _ => Except StreamsError MigrationReceipt
  | writeMigrationSeal _ _ _ => Except StreamsError Unit
  | readMigrationSeal _ => Except StreamsError (Option MigrationSeal)

/-- The program of a call; `fuel` is for the loops without a bound of their own. -/
def prog (X : Crates) (K : AtomicKeyspace) (fuel : ℕ) : (c : StreamCall) → Prog Req Resp c.Res
  | createStream minted config ids => (Streams.createStream X K fuel ids minted config).run
  | createStreamWithId stream config ids => (Streams.createStreamWithId X K fuel ids stream config).run
  | readConfig stream => (Streams.readConfig X K stream).run
  | trimFloor stream => (Streams.trimFloor K fuel stream).run
  | append stream schemaId stableEventId payload ids =>
    (Streams.append X K fuel ids stream schemaId stableEventId payload).run
  | appendExpected predecessor schemaId stableEventId payload ids =>
    (Streams.appendExpected X K fuel ids predecessor schemaId stableEventId payload).run
  | read stream afterSeq limit ids => Streams.read X K fuel ids stream afterSeq limit
  | readEvent stream seq => (Streams.readEvent X K fuel stream seq).run
  | readRange stream afterSeq throughSeq limit => (Streams.readRange X K fuel stream afterSeq throughSeq limit).run
  | readCursor stream consumer => (Streams.readCursor X K fuel stream consumer).run
  | advanceCursor stream consumer targetSeq ids => (Streams.advanceCursor X K fuel ids stream consumer targetSeq).run
  | trim stream firstRetained => (Streams.trim X K fuel stream firstRetained).run
  | gc stream => (Streams.gc K fuel stream).run
  | migrateLog stream entries ids => (Streams.migrateLog X K fuel ids stream entries).run
  | writeMigrationSeal stream value ids => (Streams.writeMigrationSeal X K fuel ids stream value).run
  | readMigrationSeal stream => (Streams.readMigrationSeal X K stream).run

/-- The keys a call may publish at. -/
inductive Publishes : StreamCall → Str → Prop where
  | minted (stream : StreamId) (config : Bytes) (ids : ℕ → Bytes) : Publishes (createStream stream config ids) (stream.logKey 0)
  | genesis (stream : StreamId) (config : Bytes) (ids : ℕ → Bytes) :
      Publishes (createStreamWithId stream config ids) (stream.logKey 0)
  | event (stream : StreamId) (schemaId : SchemaId) (stableEventId : StableEventId) (payload : Bytes) (ids : ℕ → Bytes)
      (seq : UInt64) : Publishes (append stream schemaId stableEventId payload ids) (stream.logKey seq)
  | appendTail (stream : StreamId) (schemaId : SchemaId) (stableEventId : StableEventId) (payload : Bytes) (ids : ℕ → Bytes) :
      Publishes (append stream schemaId stableEventId payload ids) stream.tailKey
  | expected (predecessor : EventRef) (schemaId : SchemaId) (stableEventId : StableEventId) (payload : Bytes) (ids : ℕ → Bytes)
      (seq : UInt64) : Publishes (appendExpected predecessor schemaId stableEventId payload ids) (predecessor.streamId.logKey seq)
  | readTail (stream : StreamId) (afterSeq : UInt64) (limit : ℕ) (ids : ℕ → Bytes) :
      Publishes (read stream afterSeq limit ids) stream.tailKey
  | cursor {stream : StreamId} {consumer key : Str} (targetSeq : UInt64) (ids : ℕ → Bytes)
      (hk : stream.cursorKey consumer = .ok key) : Publishes (advanceCursor stream consumer targetSeq ids) key
  | entry (stream : StreamId) (entries : List MigrationEntry) (ids : ℕ → Bytes) (seq : UInt64) :
      Publishes (migrateLog stream entries ids) (stream.logKey seq)
  | migrateTail (stream : StreamId) (entries : List MigrationEntry) (ids : ℕ → Bytes) :
      Publishes (migrateLog stream entries ids) stream.tailKey
  | seal (stream : StreamId) (value : MigrationSeal) (ids : ℕ → Bytes) :
      Publishes (writeMigrationSeal stream value ids) stream.sealKey

/-- The writing operations of the keyspace a call is made of. -/
inductive Uses : StreamCall → SpaceCall → Prop where
  | publish {c : StreamCall} {sc : SpaceCall} {key : Str} (hc : c.Publishes key) (hs : sc.publishes = some key) : Uses c sc
  | certify (stream : StreamId) (firstRetained : UInt64) :
      Uses (trim stream firstRetained) (.proposeTrim stream.value firstRetained)
  | sweep (stream : StreamId) (floor : UInt64) : Uses (gc stream) (.deleteBelow stream.value stream.logPrefix floor)

/-- What a call may ask. -/
def Asks (X : Crates) (K : AtomicKeyspace) (c : StreamCall) (r : Req) : Prop :=
  K.Reads r ∨ ∃ sc, c.Uses sc ∧ sc.Writes X.toOutside K r

end StreamCall

/-! ### Parts of operations -/

section
variable {P : Req → Prop} {ε ε' α : Type}

theorem every_check {x : Except ε α} : (check x).run.Every P fun _ => True := by
  cases x <;> trivial

theorem every_mapErr {f : ε' → ε} {p : StoreOp ε' α} (hp : p.run.Every P fun _ => True) :
    (mapErr f p).run.Every P fun _ => True := by
  refine Op.every_attempt_bind hp ?_
  rintro (e | a) <;> trivial

theorem every_lift {p : Quiet α} (hp : p.Every P fun _ => True) :
    (ExceptT.lift p : StoreOp ε α).run.Every P fun _ => True :=
  Prog.every_liftE.2 hp

/-- A program of which only the requests matter, after one of which only they do. -/
theorem every_seq {β : Type} {p : Quiet α} {f : α → Quiet β} (hp : p.Every P fun _ => True)
    (hf : ∀ a, (f a).Every P fun _ => True) : (p >>= f).Every P fun _ => True := by
  rw [Prog.every_bind]
  exact hp.imp fun a _ => hf a

end

section
variable {X : Crates} {K : AtomicKeyspace} {fuel : ℕ} {ids : ℕ → Bytes} {P : Req → Prop} (hP : Key.AllowsReads K P)
include hP

theorem every_get (key : Str) : (get X.toOutside K key).run.Every P fun _ => True := Key.every_get _ hP key

theorem every_getWithEtag (key : Str) : (getWithEtag X.toOutside K key).run.Every P fun _ => True :=
  Key.every_getWithEtag _ hP key

theorem every_trimFloor (stream : StreamId) : (trimFloor K fuel stream).run.Every P fun _ => True :=
  every_mapErr (Key.every_trimFloor hP ..)

theorem every_readTailHint (stream : StreamId) : (readTailHint X K stream).run.Every P fun _ => True := by
  refine Prog.every_bind_trivial (every_mapErr (every_get hP _)) ?_
  rintro (_ | bytes)
  · trivial
  · dsimp only
    split
    · trivial
    · split <;> trivial

theorem every_verifiedTailHint (stream : StreamId) : (verifiedTailHint X K stream).Every P fun _ => True := by
  refine every_seq (every_readTailHint hP stream) ?_
  rintro (_ | _ | hint)
  · trivial
  · trivial
  · refine every_seq (every_get hP _) ?_
    rintro (_ | _ | bytes) <;> trivial

theorem every_hintGivesWay (stream : StreamId) (landed : UInt64) (digest : Str) (bytes : Bytes) :
    (hintGivesWay X K stream landed digest bytes).Every P fun _ => True := by
  unfold hintGivesWay
  split
  · trivial
  split
  · trivial
  split
  · trivial
  split
  · trivial
  · refine every_seq (every_get hP _) ?_
    rintro (_ | _ | bytes) <;> trivial

theorem every_listLogMaxLoop (stream : StreamId) (after : Option Str) (best : UInt64) :
    (listLogMaxLoop K stream fuel after best).run.Every P fun _ => True := by
  induction fuel generalizing after best with
  | zero => trivial
  | succ fuel ih =>
    refine Prog.every_bind_trivial (every_mapErr (Key.every_listAfter hP ..)) fun keys => ?_
    split
    · trivial
    · split
      · trivial
      · exact ih ..

theorem every_listLogMax (stream : StreamId) : (listLogMax X K fuel stream).run.Every P fun _ => True :=
  Prog.every_bind_trivial (every_lift (every_verifiedTailHint hP stream)) fun _ => every_listLogMaxLoop hP ..

theorem every_nextLogKeyAfter (stream : StreamId) (after : UInt64) : (nextLogKeyAfter K stream after).run.Every P fun _ => True :=
  Prog.every_bind_trivial (Key.every_listAfter hP ..) fun _ => trivial

theorem every_strictFetch (stream : StreamId) (seq : UInt64) (operation : String) :
    (strictFetch X K stream seq operation).run.Every P fun _ => True := by
  refine Prog.every_bind_trivial (every_mapErr (every_get hP _)) ?_
  rintro (_ | bytes)
  · trivial
  · show (some <$> check (verify X stream seq bytes)).run.Every P fun _ => True
    rw [map_eq_pure_bind]
    exact Prog.every_bind_trivial every_check fun _ => trivial

theorem every_strictGenesis (stream : StreamId) (operation : String) :
    (strictGenesis X K stream operation).run.Every P fun _ => True := by
  refine Prog.every_bind_trivial (every_strictFetch hP ..) ?_
  rintro (_ | envelope) <;> trivial

theorem every_floorBeyond (stream : StreamId) (seq : UInt64) : (floorBeyond K fuel stream seq).Every P fun _ => True := by
  refine every_seq (every_trimFloor hP stream) ?_
  rintro (_ | _ | floor) <;> trivial

theorem every_decodeAndVerifyCursor (stream : StreamId) (consumer : Str) (bytes : Bytes) (operation : String) :
    (decodeAndVerifyCursor X K fuel stream consumer bytes operation).run.Every P fun _ => True := by
  refine Prog.every_bind_trivial every_check fun cursor => Prog.every_bind_trivial (every_mapErr (every_get hP _)) ?_
  rintro (_ | event)
  · refine Prog.every_bind_trivial (every_lift (every_floorBeyond hP ..)) ?_
    rintro (_ | floor) <;> trivial
  · dsimp only
    split
    · trivial
    · split <;> trivial

theorem every_currentCursor (stream : StreamId) (consumer : Str) (bytes : Bytes) :
    (currentCursor X K fuel stream consumer bytes).run.Every P fun _ => True := by
  refine Op.every_attempt_bind (every_decodeAndVerifyCursor hP ..) ?_
  rintro (e | cursor)
  · cases e with
    | offsetExpired expired firstRetained =>
      dsimp only
      split
      · trivial
      · split <;> trivial
    | _ => trivial
  · trivial

theorem every_cursorTarget (stream : StreamId) (targetSeq : UInt64) :
    (cursorTarget X K fuel stream targetSeq).run.Every P fun _ => True := by
  refine Prog.every_bind_trivial (every_mapErr (every_get hP _)) ?_
  rintro (_ | bytes)
  · refine Prog.every_bind_trivial (every_lift (every_floorBeyond hP ..)) ?_
    rintro (_ | floor) <;> trivial
  · exact Prog.every_bind_trivial every_check fun _ => trivial

theorem every_verifyMigrationGenesis (stream : StreamId) : (verifyMigrationGenesis X K stream).run.Every P fun _ => True := by
  refine Op.every_attempt_bind (every_get hP _) ?_
  rintro (e | _ | bytes)
  · cases e <;> trivial
  · trivial
  · exact Prog.every_bind_trivial every_check fun _ => trivial

end

/-! ### Parts that write -/

theorem succ_pos_of_ne_max {p : UInt64} (hp : p ≠ maxSeq) : 0 < p + 1 := by
  rw [UInt64.pos_iff_ne_zero]
  intro h
  refine hp ?_
  rw [maxSeq]
  grind

/-- `P` lets every write through that publishes at `key`. -/
def LetsPublish (X : Crates) (K : AtomicKeyspace) (P : Req → Prop) (key : Str) : Prop :=
  ∀ sc : SpaceCall, sc.publishes = some key → ∀ r, sc.Writes X.toOutside K r → P r

section
variable {X : Crates} {K : AtomicKeyspace} {fuel : ℕ} {ids : ℕ → Bytes} {P : Req → Prop} (hP : ∀ r, K.Reads r → P r)
include hP

theorem every_create {key : Str} (hk : LetsPublish X K P key) (value : Bytes) :
    (create X.toOutside K fuel key value ids).run.Every P fun _ => True := by
  refine (Keyspace.asks_create key value ids).mono fun r hr => ?_
  rcases hr with hr | hr
  · exact hP r hr
  · exact hk _ rfl r hr

theorem every_compareExchange {key : Str} (hk : LetsPublish X K P key) (expected : Etag) (value commitId : Bytes) :
    (compareExchange X.toOutside K fuel key expected value commitId).run.Every P fun _ => True := by
  refine (Keyspace.asks_compareExchange key expected value commitId).mono fun r hr => ?_
  rcases hr with hr | hr
  · exact hP r hr
  · exact hk _ rfl r hr

theorem every_advanceTailHint {stream : StreamId} (hk : LetsPublish X K P stream.tailKey) (landed : UInt64)
    (envelope : Envelope) : (advanceTailHint X K fuel ids stream landed envelope).Every P fun _ => True := by
  have hreads := Keyspace.allowsReads_of hP
  refine every_seq (every_getWithEtag hreads _) ?_
  rintro (_ | _ | ⟨bytes, etag⟩)
  · trivial
  · exact every_seq (every_create hP hk _) fun _ => trivial
  · refine every_seq (every_hintGivesWay hreads ..) ?_
    rintro (_ | _)
    · trivial
    · exact every_seq (every_compareExchange hP hk ..) fun _ => trivial

theorem every_getChunk (stream : StreamId) (seqs : List UInt64) : (getChunk X K stream seqs).Every P fun _ => True := by
  induction seqs with
  | nil => trivial
  | cons seq seqs ih => exact every_seq (every_get (Keyspace.allowsReads_of hP) _) fun _ => every_seq ih fun _ => trivial

theorem every_healTailHint {stream : StreamId} (hk : LetsPublish X K P stream.tailKey) (afterSeq : UInt64)
    (last : Option Envelope) : (healTailHint X K fuel ids stream afterSeq last).Every P fun _ => True := by
  cases last with
  | none => trivial
  | some last =>
    refine every_seq (every_verifiedTailHint (Keyspace.allowsReads_of hP) stream) fun hint => ?_
    split
    · trivial
    split
    · trivial
    · exact every_advanceTailHint hP hk ..

theorem every_probeUp (stream : StreamId) (start low span : UInt64) :
    (probeUp X K stream start fuel low span).Every P fun _ => True := by
  induction fuel generalizing low span with
  | zero => trivial
  | succ fuel ih =>
    unfold probeUp
    dsimp only
    split
    · trivial
    · refine every_seq (every_get (Keyspace.allowsReads_of hP) _) ?_
      rintro (_ | _ | bytes)
      · trivial
      · trivial
      · exact ih ..

theorem every_bisect (stream : StreamId) (low high : UInt64) : (bisect X K stream fuel low high).Every P fun _ => True := by
  induction fuel generalizing low high with
  | zero => trivial
  | succ fuel ih =>
    unfold bisect
    split
    · refine every_seq (every_get (Keyspace.allowsReads_of hP) _) ?_
      rintro (_ | _ | bytes)
      · trivial
      · exact ih ..
      · exact ih ..
    · trivial

theorem every_recoverTailHint {stream : StreamId} (hk : LetsPublish X K P stream.tailKey) (start : UInt64) :
    (recoverTailHint X K fuel ids stream start).Every P fun _ => True := by
  have hreads := Keyspace.allowsReads_of hP
  refine every_seq (every_get hreads _) ?_
  rintro (_ | _ | bytes)
  · trivial
  · trivial
  refine every_seq (every_probeUp hP ..) ?_
  rintro (_ | ⟨low, span⟩)
  · trivial
  refine every_seq (every_bisect hP ..) ?_
  rintro (_ | low)
  · trivial
  refine every_seq (every_get hreads _) ?_
  rintro (_ | _ | bytes)
  · trivial
  · trivial
  · dsimp only
    split
    · trivial
    · exact every_advanceTailHint hP hk ..

theorem every_readLoop (stream : StreamId) (limit rounds : ℕ) (events : List Envelope) (chunkStart : UInt64) :
    (readLoop X K stream limit rounds events chunkStart).Every P fun _ => True := by
  induction rounds generalizing events chunkStart with
  | zero => trivial
  | succ rounds ih =>
    refine every_seq (every_getChunk hP ..) fun results => ?_
    split
    · trivial
    · trivial
    · split
      · trivial
      · split
        · trivial
        · exact ih ..

theorem every_readHealed {stream : StreamId} (hk : LetsPublish X K P stream.tailKey) (afterSeq : UInt64) (walked : Walked)
    (endSeq : UInt64) (endWitnessed : Bool) :
    (readHealed X K fuel ids stream afterSeq walked endSeq endWitnessed).Every P fun _ => True := by
  have hpage : (if walked.events = [] then pure .empty else pure (.page walked.events endWitnessed) : Quiet Replay).Every P
      fun _ => True := by
    split <;> trivial
  cases endWitnessed with
  | true => exact every_seq (every_healTailHint hP hk ..) fun _ => hpage
  | false => exact every_seq (every_recoverTailHint hP hk _) fun _ => hpage

theorem every_readSuffix {stream : StreamId} (hk : LetsPublish X K P stream.tailKey) (walked : Walked) (next : UInt64) :
    (readSuffix X K fuel ids stream walked next).Every P fun _ => True := by
  unfold readSuffix
  split
  · split <;> trivial
  split
  · trivial
  split
  · refine every_seq (every_verifiedTailHint (Keyspace.allowsReads_of hP) stream) fun hint => ?_
    split
    · exact every_seq (every_recoverTailHint hP hk _) fun _ => trivial
    · trivial
  · trivial

theorem every_readEnd {stream : StreamId} (hk : LetsPublish X K P stream.tailKey) (afterSeq : UInt64) (walked : Walked)
    (endSeq : UInt64) : (readEnd X K fuel ids stream afterSeq walked endSeq).Every P fun _ => True := by
  have hreads := Keyspace.allowsReads_of hP
  refine every_seq (every_verifiedTailHint hreads stream) fun verified => ?_
  split
  · trivial
  dsimp only
  split
  · refine every_seq (every_get hreads _) ?_
    rintro (_ | _ | bytes)
    · trivial
    · exact every_readHealed hP hk ..
    · dsimp only
      split <;> trivial
  · exact every_readHealed hP hk ..

theorem every_read {stream : StreamId} (hk : LetsPublish X K P stream.tailKey) (afterSeq : UInt64) (limit : ℕ) :
    (read X K fuel ids stream afterSeq limit).Every P fun _ => True := by
  have hreads := Keyspace.allowsReads_of hP
  unfold read
  split
  · trivial
  refine every_seq (every_get hreads _) ?_
  rintro (_ | _ | genesis)
  · trivial
  · trivial
  dsimp only
  split
  · trivial
  split
  · trivial
  refine every_seq (Key.every_trimFloor hreads ..) ?_
  rintro (_ | floor)
  · trivial
  dsimp only
  split
  · trivial
  refine every_seq (every_readLoop hP ..) ?_
  rintro (_ | walked)
  · trivial
  refine every_seq (every_nextLogKeyAfter hreads ..) ?_
  rintro (_ | _ | next)
  · trivial
  · exact every_readEnd hP hk ..
  · exact every_readSuffix hP hk ..

theorem every_readRange (stream : StreamId) (afterSeq throughSeq : UInt64) (limit : ℕ) :
    (readRange X K fuel stream afterSeq throughSeq limit).run.Every P fun _ => True := by
  have hreads := Keyspace.allowsReads_of hP
  have hchunk : ∀ seqs, (strictChunk X K stream seqs).Every P fun _ => True := by
    intro seqs
    induction seqs with
    | nil => trivial
    | cons seq seqs ih => exact every_seq (every_strictFetch hreads ..) fun _ => every_seq ih fun _ => trivial
  have hloop : ∀ rounds left next, (rangeLoop X K stream rounds left next).run.Every P fun _ => True := by
    intro rounds
    induction rounds with
    | zero => exact fun _ _ => trivial
    | succ rounds ih =>
      rintro (_ | left) next
      · trivial
      refine Prog.every_bind_trivial (every_lift (hchunk _)) fun _ => Prog.every_bind_trivial every_check fun events => ?_
      split
      · trivial
      · exact Prog.every_bind_trivial (ih ..) fun _ => trivial
  refine Prog.every_bind_trivial every_check fun _ => ?_
  split
  · trivial
  split
  · trivial
  refine Prog.every_bind_trivial (every_strictGenesis hreads ..) fun _ => Prog.every_bind_trivial
    (every_mapErr (Key.every_trimFloor hreads ..)) fun _ => Prog.every_bind_trivial every_check fun _ => ?_
  exact Prog.every_bind_trivial (hloop ..) fun _ => trivial

theorem every_appendScan {stream : StreamId} (hk : LetsPublish X K P stream.tailKey) (schemaId : SchemaId)
    (stableEventId : StableEventId) (payload : Bytes) (n : ℕ) (seq : UInt64) :
    (appendScan X K fuel ids stream schemaId stableEventId payload n seq).run.Every P fun _ => True := by
  induction n generalizing seq with
  | zero => trivial
  | succ n ih =>
    refine Prog.every_bind_trivial (every_mapErr (every_get (Keyspace.allowsReads_of hP) _)) ?_
    rintro (_ | existing)
    · trivial
    refine Prog.every_bind_trivial every_check fun envelope => ?_
    split
    · exact ih _
    split
    · exact Prog.every_bind_trivial (every_lift (every_advanceTailHint hP hk ..)) fun _ => trivial
    · trivial

theorem every_appendAt {stream : StreamId} {guess : UInt64} (hk : LetsPublish X K P stream.tailKey)
    (he : LetsPublish X K P (stream.logKey guess)) (schemaId : SchemaId) (stableEventId : StableEventId) (payload : Bytes) :
    (appendAt X K fuel ids stream schemaId stableEventId payload guess).run.Every P fun _ => True := by
  refine Prog.every_bind_trivial every_check fun envelope => Op.every_attempt_bind (every_create hP he _) ?_
  rintro (e | u)
  · cases e with
    | alreadyExists key =>
      refine Prog.every_bind_trivial (every_mapErr (every_get (Keyspace.allowsReads_of hP) _)) ?_
      rintro (_ | bytes)
      · trivial
      dsimp only
      split
      · exact Prog.every_bind_trivial (every_lift (every_advanceTailHint hP hk ..)) fun _ => trivial
      · refine Prog.every_bind_trivial every_check fun landed => ?_
        split <;> trivial
    | _ => trivial
  · exact Prog.every_bind_trivial (every_lift (every_advanceTailHint hP hk ..)) fun _ => trivial

theorem every_appendLoop {stream : StreamId} (hk : LetsPublish X K P stream.tailKey)
    (he : ∀ seq, 0 < seq → LetsPublish X K P (stream.logKey seq)) (schemaId : SchemaId) (stableEventId : StableEventId)
    (payload : Bytes) (left : ℕ) {guess : UInt64} (hguess : 0 < guess) :
    (appendLoop X K fuel ids stream schemaId stableEventId payload left guess).run.Every P fun _ => True := by
  induction left generalizing guess with
  | zero =>
    unfold appendLoop
    refine Prog.every_bind_trivial (every_appendAt hP hk (he guess hguess) ..) ?_
    rintro (_ | receipt) <;> trivial
  | succ left ih =>
    unfold appendLoop
    refine Prog.every_bind_trivial (every_appendAt hP hk (he guess hguess) ..) ?_
    rintro (_ | receipt)
    · dsimp only
      split
      · trivial
      · next hmax => exact ih (succ_pos_of_ne_max hmax)
    · trivial

/-- An append publishes behind the genesis. -/
theorem every_append {stream : StreamId} (hk : LetsPublish X K P stream.tailKey)
    (he : ∀ seq, 0 < seq → LetsPublish X K P (stream.logKey seq)) (schemaId : SchemaId) (stableEventId : StableEventId)
    (payload : Bytes) : (append X K fuel ids stream schemaId stableEventId payload).run.Every P fun _ => True := by
  have hreads := Keyspace.allowsReads_of hP
  refine Prog.every_bind_trivial (every_mapErr (every_get hreads _)) ?_
  rintro (_ | genesis)
  · trivial
  refine Prog.every_bind_trivial every_check fun _ => Prog.every_bind_trivial (every_listLogMax hreads stream) fun listMax =>
    Prog.every_bind_trivial (every_lift (every_verifiedTailHint hreads stream)) fun hint =>
    Prog.every_bind_trivial (every_trimFloor hreads stream) fun floor => ?_
  unfold appendFrom
  dsimp only
  split
  · trivial
  next hmax =>
  refine Prog.every_bind_trivial (every_appendScan hP hk ..) ?_
  rintro (_ | receipt)
  · refine every_appendLoop hP hk he _ _ _ _ ?_
    generalize max listMax (hint.elim 0 (·.highestValidatedDenseSeq)) = eventMax at hmax
    rw [show max (eventMax + 1) (floor.getD 0) = if eventMax + 1 ≤ floor.getD 0 then floor.getD 0 else eventMax + 1 from rfl]
    have hpos := succ_pos_of_ne_max hmax
    split
    · next hle => exact UInt64.lt_of_lt_of_le hpos hle
    · exact hpos
  · trivial

theorem every_observeBefore (stream : StreamId) (operation : String) (maxObserved : Option UInt64) :
    (observeBefore K fuel stream operation maxObserved).run.Every P fun _ => True :=
  every_mapErr (Prog.every_bind_trivial (every_mapErr (Key.every_trimFloor (Keyspace.allowsReads_of hP) ..)) fun _ => every_check)

theorem every_observeFloor (stream : StreamId) (operation : String) (maxObserved : Option UInt64) :
    (observeFloor K fuel stream operation maxObserved).run.Every P fun _ => True :=
  Prog.every_bind_trivial (every_mapErr (Key.every_trimFloor (Keyspace.allowsReads_of hP) ..)) fun _ => every_check

theorem every_adjudicateCommitted (stream : StreamId) (targetSeq : UInt64) (receipt : AppendReceipt)
    (maxObserved : Option UInt64) :
    (adjudicateCommitted K fuel stream targetSeq receipt maxObserved).run.Every P fun _ => True := by
  refine Op.every_attempt_bind (every_observeFloor hP ..) ?_
  rintro (_ | ⟨floor, _⟩)
  · trivial
  · dsimp only
    split <;> trivial

theorem every_readBack (predecessor : EventRef) (targetSeq : UInt64) (envelope : Envelope) (receipt : AppendReceipt)
    (maxObserved : Option UInt64) :
    (readBack X K fuel predecessor targetSeq envelope receipt maxObserved).run.Every P fun _ => True := by
  refine Op.every_attempt_bind (every_get (Keyspace.allowsReads_of hP) _) ?_
  rintro (_ | _ | bytes)
  · refine Op.every_attempt_bind (every_observeFloor hP ..) ?_
    rintro (e | ⟨floor, _⟩)
    · cases e <;> trivial
    · dsimp only
      split <;> trivial
  · refine Op.every_attempt_bind (every_observeFloor hP ..) ?_
    rintro (_ | ⟨floor, _⟩)
    · trivial
    · dsimp only
      split <;> trivial
  · dsimp only
    split
    · exact every_adjudicateCommitted hP ..
    · refine Op.every_attempt_bind (every_observeFloor hP ..) ?_
      rintro (_ | ⟨floor, _⟩)
      · trivial
      · dsimp only
        split <;> trivial

theorem every_verifiedGenesis (stream : StreamId) : (verifiedGenesis X K stream).run.Every P fun _ => True := by
  refine Prog.every_bind_trivial (every_mapErr (every_get (Keyspace.allowsReads_of hP) _)) ?_
  rintro (_ | bytes)
  · trivial
  · exact every_check

theorem every_verifyPredecessor (predecessor : EventRef) (genesis : Envelope) (targetSeq : UInt64)
    (maxObserved : Option UInt64) :
    (verifyPredecessor X K fuel predecessor genesis targetSeq maxObserved).run.Every P fun _ => True := by
  unfold verifyPredecessor
  split
  · exact every_check
  refine Prog.every_bind_trivial (every_mapErr (every_get (Keyspace.allowsReads_of hP) _)) ?_
  rintro (_ | bytes)
  · exact Prog.every_bind_trivial (every_observeBefore hP ..) fun _ => Prog.every_bind_trivial every_check fun _ => trivial
  · exact Prog.every_bind_trivial every_check fun _ => every_check

theorem every_probeLaterWitness (stream : StreamId) (targetSeq : UInt64) :
    (probeLaterWitness X K stream targetSeq).run.Every P fun _ => True := by
  refine Prog.every_bind_trivial (every_mapErr (every_nextLogKeyAfter (Keyspace.allowsReads_of hP) ..)) ?_
  rintro (_ | later)
  · trivial
  refine Prog.every_bind_trivial (every_mapErr (every_get (Keyspace.allowsReads_of hP) _)) ?_
  rintro (_ | bytes)
  · trivial
  · exact Prog.every_bind_trivial every_check fun _ => trivial

theorem every_targetOccupied (predecessor : EventRef) (targetSeq : UInt64) (envelope : Envelope) (receipt : AppendReceipt)
    (bytes : Bytes) : (targetOccupied X K fuel predecessor targetSeq envelope receipt bytes).run.Every P fun _ => True := by
  unfold targetOccupied
  split
  · exact every_adjudicateCommitted hP ..
  · refine Prog.every_bind_trivial (every_observeBefore hP ..) ?_
    rintro ⟨floor, _⟩
    dsimp only
    split <;> trivial

theorem every_targetDamaged (predecessor : EventRef) (targetSeq : UInt64) (err : StreamsError) :
    (targetDamaged K fuel predecessor targetSeq err).run.Every P fun _ => True := by
  unfold targetDamaged
  split
  · refine Prog.every_bind_trivial (every_observeBefore hP ..) ?_
    rintro ⟨floor, _⟩
    dsimp only
    split <;> trivial
  · trivial

theorem every_appendExpected {predecessor : EventRef} (he : ∀ seq, LetsPublish X K P (predecessor.streamId.logKey seq))
    (schemaId : SchemaId) (stableEventId : StableEventId) (payload : Bytes) :
    (appendExpected X K fuel ids predecessor schemaId stableEventId payload).run.Every P fun _ => True := by
  refine Prog.every_bind_trivial every_check ?_
  rintro ⟨targetSeq, envelope⟩
  refine Prog.every_bind_trivial (every_verifiedGenesis hP _) fun genesis =>
    Op.every_attempt_bind (every_get (Keyspace.allowsReads_of hP) _) ?_
  rintro (_ | _ | bytes)
  · exact every_targetDamaged hP ..
  · refine Prog.every_bind_trivial (every_observeBefore hP ..) ?_
    rintro ⟨floor, maxObserved⟩
    refine Prog.every_bind_trivial every_check fun _ => Prog.every_bind_trivial (every_verifyPredecessor hP ..) fun _ =>
      Prog.every_bind_trivial (every_probeLaterWitness hP ..) fun _ => Prog.every_bind_trivial (every_observeBefore hP ..) ?_
    rintro ⟨floor, maxObserved⟩
    refine Prog.every_bind_trivial every_check fun _ => Op.every_attempt_bind (every_create hP (he targetSeq) _) ?_
    rintro (_ | _)
    · exact every_readBack hP ..
    · exact every_adjudicateCommitted hP ..
  · exact every_targetOccupied hP ..

theorem every_createStreamWithId {stream : StreamId} (he : LetsPublish X K P (stream.logKey 0)) (config : Bytes) :
    (createStreamWithId X K fuel ids stream config).run.Every P fun _ => True := by
  refine Prog.every_bind_trivial every_check fun _ => Prog.every_bind_trivial every_check fun genesis =>
    Op.every_attempt_bind (every_create hP he _) ?_
  rintro (e | _)
  · cases e with
    | alreadyExists key =>
      exact Prog.every_bind_trivial (every_mapErr (every_get (Keyspace.allowsReads_of hP) _)) fun _ => every_check
    | _ => trivial
  · trivial

theorem every_createStream {minted : StreamId} (he : LetsPublish X K P (minted.logKey 0)) (config : Bytes) :
    (createStream X K fuel ids minted config).run.Every P fun _ => True :=
  Prog.every_bind_trivial every_check fun _ => Prog.every_bind_trivial (every_mapErr (every_create hP he _)) fun _ => trivial

theorem every_advanceLoop (stream : StreamId) (consumer : Str) {key : Str} (hk : LetsPublish X K P key) (desired : Cursor)
    (tries : ℕ) : (advanceLoop X K fuel ids stream consumer key desired tries).run.Every P fun _ => True := by
  induction tries with
  | zero => trivial
  | succ tries ih =>
    refine Op.every_attempt_bind (every_getWithEtag (Keyspace.allowsReads_of hP) _) ?_
    rintro (_ | _ | ⟨bytes, etag⟩)
    · trivial
    · refine Op.every_attempt_bind (every_create hP hk _) ?_
      rintro (e | _)
      · cases e <;> trivial
      · trivial
    · refine Prog.every_bind_trivial (every_currentCursor (Keyspace.allowsReads_of hP) ..) fun current => ?_
      split
      · trivial
      split
      · trivial
      refine Op.every_attempt_bind (every_compareExchange hP hk ..) ?_
      rintro (e | _)
      · cases e <;> trivial
      · trivial

theorem every_advanceCursor {stream : StreamId} {consumer : Str}
    (hk : ∀ key, stream.cursorKey consumer = .ok key → LetsPublish X K P key) (targetSeq : UInt64) :
    (advanceCursor X K fuel ids stream consumer targetSeq).run.Every P fun _ => True := by
  unfold advanceCursor
  split
  · trivial
  refine Prog.every_bind_trivial (every_cursorTarget (Keyspace.allowsReads_of hP) ..) fun eventId => ?_
  cases hkey : stream.cursorKey consumer with
  | error e => trivial
  | ok key => exact every_advanceLoop hP stream consumer (hk key hkey) _ fuel

theorem every_readCursor (stream : StreamId) (consumer : Str) : (readCursor X K fuel stream consumer).run.Every P fun _ => True := by
  have hreads := Keyspace.allowsReads_of hP
  refine Prog.every_bind_trivial every_check fun key => Prog.every_bind_trivial (every_mapErr (every_get hreads _)) ?_
  rintro (_ | bytes)
  · trivial
  · show (some <$> decodeAndVerifyCursor X K fuel stream consumer bytes "read_cursor: event").run.Every P fun _ => True
    rw [map_eq_pure_bind]
    exact Prog.every_bind_trivial (every_decodeAndVerifyCursor hreads ..) fun _ => trivial

theorem every_readEvent (stream : StreamId) (seq : UInt64) : (readEvent X K fuel stream seq).run.Every P fun _ => True := by
  have hreads := Keyspace.allowsReads_of hP
  refine Prog.every_bind_trivial every_check fun _ => Prog.every_bind_trivial (every_strictGenesis hreads ..) fun genesis => ?_
  split
  · trivial
  refine Prog.every_bind_trivial (every_mapErr (Key.every_trimFloor hreads ..)) fun _ => Prog.every_bind_trivial every_check
    fun _ => Prog.every_bind_trivial (every_strictFetch hreads ..) ?_
  rintro (_ | envelope) <;> trivial

theorem every_readBackLoop {stream : StreamId} (hk : LetsPublish X K P stream.tailKey) (rounds : ℕ) (after : UInt64) :
    (readBackLoop X K fuel ids stream rounds after).run.Every P fun _ => True := by
  induction rounds generalizing after with
  | zero => trivial
  | succ rounds ih =>
    refine Prog.every_bind_trivial (every_lift (every_read hP hk ..)) fun _ => Prog.every_bind_trivial every_check ?_
    rintro ⟨after, _ | _⟩
    · exact ih after
    · trivial

theorem every_migrateEntry {stream : StreamId} {entry : MigrationEntry}
    (hc : ∀ envelope, Envelope.encode X stream entry.seq entry.schemaId entry.stableEventId entry.payload = .ok envelope →
      (create X.toOutside K fuel (stream.logKey entry.seq) envelope.encoded ids).run.Every P fun _ => True) :
    (migrateEntry X K fuel ids stream entry).run.Every P fun _ => True := by
  unfold migrateEntry
  cases he : Envelope.encode X stream entry.seq entry.schemaId entry.stableEventId entry.payload with
  | error e => trivial
  | ok envelope =>
  show (Op.attempt _ >>= _ : StreamOp Envelope).run.Every P _
  refine Op.every_attempt_bind (hc envelope he) ?_
  rintro (e | _)
  · cases e with
    | alreadyExists key =>
      refine Prog.every_bind_trivial (every_mapErr (every_get (Keyspace.allowsReads_of hP) _)) ?_
      rintro (_ | existing)
      · trivial
      · exact Prog.every_bind_trivial every_check fun _ => trivial
    | _ => trivial
  · trivial

/-- What the creations of the entries ask, and what the hint does. -/
theorem every_migrateLog_of {stream : StreamId} (hk : LetsPublish X K P stream.tailKey) {entries : List MigrationEntry}
    (he : ∀ entry ∈ entries, (migrateEntry X K fuel ids stream entry).run.Every P fun _ => True) :
    (migrateLog X K fuel ids stream entries).run.Every P fun _ => True := by
  have hentries : ∀ es : List MigrationEntry, (∀ entry ∈ es, entry ∈ entries) →
      (migrateEntries X K fuel ids stream es).run.Every P fun _ => True := by
    intro es hes
    induction es with
    | nil => trivial
    | cons entry es ih =>
      exact Prog.every_bind_trivial (he entry (hes entry List.mem_cons_self)) fun _ =>
        Prog.every_bind_trivial (ih fun e hmem => hes e (List.mem_cons_of_mem _ hmem)) fun _ => trivial
  refine Prog.every_bind_trivial every_check fun _ =>
    Prog.every_bind_trivial (every_verifyMigrationGenesis (Keyspace.allowsReads_of hP) stream) fun _ =>
    Prog.every_bind_trivial (hentries _ fun entry hmem => (List.mem_insertionSort _).1 hmem) fun envelopes =>
    Prog.every_bind_trivial (every_readBackLoop hP hk ..) fun after => ?_
  split
  · trivial
  split
  · exact Prog.every_bind_trivial (every_lift (every_advanceTailHint hP hk ..)) fun _ => trivial
  · trivial

theorem every_migrateLog {stream : StreamId} (hk : LetsPublish X K P stream.tailKey)
    (he : ∀ seq, LetsPublish X K P (stream.logKey seq)) (entries : List MigrationEntry) :
    (migrateLog X K fuel ids stream entries).run.Every P fun _ => True :=
  every_migrateLog_of hP hk fun _ _ => every_migrateEntry hP fun _ _ => every_create hP (he _) _

theorem every_writeMigrationSeal {stream : StreamId} (hk : LetsPublish X K P stream.sealKey) (value : MigrationSeal) :
    (writeMigrationSeal X K fuel ids stream value).run.Every P fun _ => True := by
  have hreads := Keyspace.allowsReads_of hP
  unfold writeMigrationSeal
  split
  · trivial
  refine Prog.every_bind_trivial (every_verifyMigrationGenesis hreads stream) fun _ =>
    Op.every_attempt_bind (every_create hP hk _) ?_
  rintro (e | _)
  · cases e with
    | alreadyExists key =>
      refine Op.every_attempt_bind (every_get hreads _) ?_
      rintro (e | _ | existing)
      · cases e <;> trivial
      · trivial
      · refine Prog.every_bind_trivial every_check fun landed => ?_
        split <;> trivial
    | _ => trivial
  · trivial

theorem every_readMigrationSeal (stream : StreamId) : (readMigrationSeal X K stream).run.Every P fun _ => True := by
  have hreads := Keyspace.allowsReads_of hP
  refine Op.every_attempt_bind (every_get hreads _) ?_
  rintro (e | _ | bytes)
  · cases e <;> trivial
  · trivial
  · refine Prog.every_bind_trivial (every_verifyMigrationGenesis hreads stream) fun _ => ?_
    show (some <$> check (decodeMigrationSeal X stream bytes)).run.Every P fun _ => True
    rw [map_eq_pure_bind]
    exact Prog.every_bind_trivial every_check fun _ => trivial

end

/-! ### Every call -/

/-- Every call asks only what it may. -/
theorem StreamCall.asks {X : Crates} {K : AtomicKeyspace} {fuel : ℕ} (c : StreamCall) :
    (c.prog X K fuel).Every (c.Asks X K) fun _ => True := by
  have hP : ∀ r, K.Reads r → c.Asks X K r := fun _ => .inl
  have hreads := Keyspace.allowsReads_of hP
  have hk : ∀ key, c.Publishes key → LetsPublish X K (c.Asks X K) key := fun key h sc hs r hw => .inr ⟨sc, .publish h hs, hw⟩
  have huses : ∀ sc, c.Uses sc → ∀ r, sc.Asks X.toOutside K r → c.Asks X K r := by
    rintro sc hu r (hr | hw)
    · exact .inl hr
    · exact .inr ⟨sc, hu, hw⟩
  cases c with
  | createStream minted config ids => exact every_createStream hP (hk _ (.minted ..)) config
  | createStreamWithId stream config ids => exact every_createStreamWithId hP (hk _ (.genesis ..)) config
  | readConfig stream =>
    refine Prog.every_bind_trivial (every_mapErr (every_get hreads _)) ?_
    rintro (_ | bytes)
    · trivial
    · exact Prog.every_bind_trivial every_check fun _ => trivial
  | trimFloor stream => exact every_trimFloor hreads stream
  | append stream schemaId stableEventId payload ids =>
    exact every_append hP (hk _ (.appendTail ..)) (fun seq _ => hk _ (.event ..)) ..
  | appendExpected predecessor schemaId stableEventId payload ids =>
    exact every_appendExpected hP (fun seq => hk _ (.expected ..)) ..
  | read stream afterSeq limit ids => exact every_read hP (hk _ (.readTail ..)) ..
  | readEvent stream seq => exact every_readEvent hP ..
  | readRange stream afterSeq throughSeq limit => exact every_readRange hP ..
  | readCursor stream consumer => exact every_readCursor hP ..
  | advanceCursor stream consumer targetSeq ids =>
    exact every_advanceCursor hP (fun key h => hk _ (.cursor _ _ h)) targetSeq
  | trim stream firstRetained =>
    show (Streams.trim X K fuel stream firstRetained).run.Every _ _
    unfold Streams.trim
    split
    · trivial
    refine Prog.every_bind_trivial (every_mapErr (every_get hreads _)) ?_
    rintro (_ | genesis)
    · trivial
    refine Prog.every_bind_trivial (every_listLogMax hreads stream) fun listMax =>
      Prog.every_bind_trivial (every_lift (every_verifiedTailHint hreads stream)) fun hint => ?_
    dsimp only
    split
    · trivial
    · exact every_mapErr ((Keyspace.asks_proposeTrim (O := X.toOutside) ..).mono (huses _ (.certify ..)))
  | gc stream =>
    refine Prog.every_bind_trivial (every_trimFloor hreads stream) ?_
    rintro (_ | floor)
    · trivial
    · exact every_mapErr ((Keyspace.asks_deleteBelow (O := X.toOutside) ..).mono (huses _ (.sweep ..)))
  | migrateLog stream entries ids => exact every_migrateLog hP (hk _ (.migrateTail ..)) (fun seq => hk _ (.entry ..)) entries
  | writeMigrationSeal stream value ids => exact every_writeMigrationSeal hP (hk _ (.seal ..)) value
  | readMigrationSeal stream => exact every_readMigrationSeal hP stream

/-- Any number of clients that make the calls of `P`, on a backend whose requests are sent again when their answers are lost. -/
def streamSystem (X : Crates) (K : AtomicKeyspace) (B : Backend) (fuel : ℕ) (P : StreamCall → Prop) (init : Store → Prop) :
    System Store Req Resp {c // P c} fun c => c.1.Res where
  prog c := c.1.prog X K fuel
  exec := B.delivers
  init := init

end YeetzS3.Streams
