import YeetzS3.Region
import YeetzS3.Keyspace.Asks
import YeetzS3.Keyspace.ChunkPaths
import YeetzS3.Keyspace.Deletes

/-!
# The calls of a keyspace

Every public operation of an `AtomicKeyspace`, on any key, scope and prefix, and the requests each of them may make
(`SpaceCall.asks`): reads under the two roots of the keyspace, and the writes `SpaceCall.Writes` lists. Frame
properties of the operations are case analyses over these lists.
-/

namespace YeetzS3.Keyspace

open Conc

/-- The calls on a keyspace. A streamed write is one call from begin to commit. -/
inductive SpaceCall where
  | create (key : Str) (value : Bytes) (commitIds : ℕ → Bytes)
  | compareExchange (key : Str) (expectedEtag : Etag) (value commitId : Bytes)
  | streamCreate (key : Str) (bufs : List Bytes) (commitId : Bytes)
  | streamCompareExchange (key : Str) (expectedEtag : Etag) (bufs : List Bytes) (commitId : Bytes)
  | destroy (key cause actor : Str) (ts : UInt64)
  | get (key : Str)
  | getWithEtag (key : Str)
  | openStream (key : Str)
  | readState (key : Str)
  | readStateStream (key : Str)
  | currentIncarnation (key : Str)
  | listAfter (startAfter : Option Str) (limit : ℕ)
  | delete (key : Str)
  | deleteIfMatch (key : Str) (expectedEtag : Etag)
  | deleteMany (keys : List Str)
  | deleteObjects (keys : List Str)
  | proposeTrim (scope : Str) (firstRetained : UInt64)
  | trimFloor (scope : Str)
  | deleteBelow (scope dataPrefix : Str) (firstRetained : UInt64)
  | setMaintenanceFence (commitId : Bytes)
  | releaseMaintenanceFence
  | fencePresent
  | chunkInventory
  | sweepChunks

namespace SpaceCall

/-- The errors of a call. -/
abbrev Err : SpaceCall → Type
  | deleteObjects _ => DeleteObjectsInputError
  | _ => KeyspaceError

/-- What a call returns when it succeeds. -/
abbrev Val : SpaceCall → Type
  | create _ _ _ | destroy _ _ _ _ | delete _ | deleteIfMatch _ _ | setMaintenanceFence _ | releaseMaintenanceFence => Unit
  | compareExchange _ _ _ _ => Etag
  | streamCreate _ _ _ | streamCompareExchange _ _ _ _ => CommitReceipt
  | get _ => Option Bytes
  | getWithEtag _ => Option (Bytes × Etag)
  | openStream _ => Option (ControlEnvelope × Etag)
  | readState _ => KeyState
  | readStateStream _ => StreamKeyState
  | currentIncarnation _ => UInt64
  | listAfter _ _ => List Str
  | deleteMany _ => List DeleteOutcome
  | deleteObjects _ => List DeleteObjectsOutcome
  | proposeTrim _ _ => TrimState
  | trimFloor _ => Option UInt64
  | deleteBelow _ _ _ => DeleteBelowReport
  | fencePresent => Bool
  | chunkInventory => ChunkInventory
  | sweepChunks => ChunkSweepReport

/-- What a call returns. -/
abbrev Res (c : SpaceCall) : Type := Except c.Err c.Val

/-- The program of a call; `fuel` is for the loops that page through lists. -/
def prog (O : Outside) (K : AtomicKeyspace) (fuel : ℕ) : (c : SpaceCall) → Prog Req Resp c.Res
  | create key value commitIds => (Keyspace.create O K fuel key value commitIds).run
  | compareExchange key expectedEtag value commitId => (Keyspace.compareExchange O K fuel key expectedEtag value commitId).run
  | streamCreate key bufs commitId => (Keyspace.streamCreate O K fuel key bufs commitId).run
  | streamCompareExchange key expectedEtag bufs commitId =>
    (Keyspace.streamCompareExchange O K fuel key expectedEtag bufs commitId).run
  | destroy key cause actor ts => (Keyspace.destroy O K key cause actor ts).run
  | get key => (Keyspace.get O K key).run
  | getWithEtag key => (Keyspace.getWithEtag O K key).run
  | openStream key => (Keyspace.openStream O K key).run
  | readState key => (Keyspace.readState O K fuel key).run
  | readStateStream key => (Keyspace.readStateStream O K fuel key).run
  | currentIncarnation key => (Keyspace.currentIncarnation K key).run
  | listAfter startAfter limit => (Keyspace.listAfter K startAfter limit).run
  | delete key => (Keyspace.delete K key).run
  | deleteIfMatch key expectedEtag => (Keyspace.deleteIfMatch O K key expectedEtag).run
  | deleteMany keys => (Keyspace.deleteMany K keys).run
  | deleteObjects keys => (Keyspace.deleteObjects K keys).run
  | proposeTrim scope firstRetained => (Keyspace.proposeTrim K fuel scope firstRetained).run
  | trimFloor scope => (Keyspace.trimFloor K fuel scope).run
  | deleteBelow scope dataPrefix firstRetained => (Keyspace.deleteBelow K fuel scope dataPrefix firstRetained).run
  | setMaintenanceFence commitId => (Keyspace.setMaintenanceFence K commitId).run
  | releaseMaintenanceFence => (Keyspace.releaseMaintenanceFence K).run
  | fencePresent => (Keyspace.fencePresent K).run
  | chunkInventory => (Keyspace.chunkInventory O K fuel).run
  | sweepChunks => (Keyspace.sweepChunks O K fuel).run

/-- The key a write publishes its control at. -/
def publishes : SpaceCall → Option Str
  | create key _ _ | compareExchange key _ _ _ | streamCreate key _ _ | streamCompareExchange key _ _ _ => some key
  | _ => none

/-- The keys a call removes by a raw delete. -/
def removes : SpaceCall → List Str
  | delete key => [key]
  | deleteMany keys => keys
  | _ => []

end SpaceCall

/-- A key a caller may write and delete directly. -/
def Open (key : Str) : Prop := ensureNotReservedKey key = .ok ()

/-- The prefixes `delete_below` walks over. -/
def sweptPrefixes (dataPrefix : Str) : List Str := [dataPrefix, tombstoneKey dataPrefix, incarnationKey dataPrefix]

/-- The content of every trim certificate. -/
def certificateBytes : Bytes := (ValueEnvelope.mk 0 0 (ascii "trim-certificate")).encode

/-- The reads of a keyspace. -/
inductive AtomicKeyspace.Reads (K : AtomicKeyspace) : Req → Prop where
  | object {q : Str} (h : wireSegments q ≠ []) : Reads K (.get (K.root ++ q))
  | chunk (name : Str) (i v : UInt64) (digest : Str) : Reads K (.get (chunkObjectKey K.ns name i v digest))
  | list (after : Option Str) (n : ℕ) : Reads K (.list K.root after n)
  | sizes (after : Option Str) (n : ℕ) : Reads K (.listSizes K.chunkRootPrefix after n)

/-- The writes of a call. -/
inductive SpaceCall.Writes (O : Outside) (K : AtomicKeyspace) : SpaceCall → Req → Prop where
  | control {c : SpaceCall} {key : Key K} (hc : c.publishes = some key.name) (ho : Open key.name) (d : Bytes)
      (cond : Option Etag) : Writes O K c (.put key.slots.control d cond)
  | chunk {c : SpaceCall} {key : Key K} (hc : c.publishes = some key.name) (i v : UInt64) (bytes : Bytes) :
      Writes O K c (.put (chunkObjectKey K.ns key.name i v (hashEntry O bytes).digestHex) bytes none)
  | evict {c : SpaceCall} {key : Key K} (hc : c.publishes = some key.name) (ho : Open key.name) (e : Etag) :
      Writes O K c (.deleteIf key.slots.control e)
  | tombstone {key : Key K} {cause actor : Str} {ts : UInt64} (d : Bytes) :
      Writes O K (.destroy key.name cause actor ts) (.put key.slots.tombstone d none)
  | counter {key : Key K} {cause actor : Str} {ts : UInt64} (d : Bytes) (cond : Option Etag) :
      Writes O K (.destroy key.name cause actor ts) (.put key.slots.counter d cond)
  | remove {key : Key K} {cause actor : Str} {ts : UInt64} (e : Etag) :
      Writes O K (.destroy key.name cause actor ts) (.deleteIf key.slots.control e)
  | delete {c : SpaceCall} {key : Key K} (hc : key.name ∈ c.removes) (ho : Open key.name) :
      Writes O K c (.delete key.slots.control)
  | deleteIf {key : Key K} (ho : Open key.name) (e : Etag) :
      Writes O K (.deleteIfMatch key.name e) (.deleteIf key.slots.control e)
  | deleteObjects {keys part : List Str} (hk : ∀ name ∈ part, name ∈ keys ∧ Open name ∧ ValidPath name) :
      Writes O K (.deleteObjects keys) (.deleteObjects (part.map (K.root ++ ·)))
  | certify {scope certPrefix : Str} {firstRetained : UInt64} (hs : trimCertPrefix scope = .ok certPrefix)
      (hv : ValidPath (certPrefix ++ seqComponent firstRetained)) :
      Writes O K (.proposeTrim scope firstRetained)
        (.put (K.root ++ (certPrefix ++ seqComponent firstRetained)) certificateBytes none)
  | sweep {scope dataPrefix pfx : Str} {firstRetained seq : UInt64} (hp : pfx ∈ sweptPrefixes dataPrefix)
      (h0 : 0 < seq) (hlt : seq < firstRetained) (hv : ValidPath (pfx ++ seqComponent seq)) :
      Writes O K (.deleteBelow scope dataPrefix firstRetained) (.delete (K.root ++ (pfx ++ seqComponent seq)))
  | setFence (commitId : Bytes) :
      Writes O K (.setMaintenanceFence commitId) (.put K.fenceObjectKey (ValueEnvelope.mk 0 0 commitId).encode none)
  | releaseFence (e : Etag) : Writes O K .releaseMaintenanceFence (.deleteIf K.fenceObjectKey e)
  | sweepChunk {path key : Str} (hk : logicalKeyOf K path = some key) : Writes O K .sweepChunks (.delete path)

/-- What a call may ask. -/
def SpaceCall.Asks (O : Outside) (K : AtomicKeyspace) (c : SpaceCall) (r : Req) : Prop := K.Reads r ∨ c.Writes O K r

/-! ### Every call asks only that -/

section
variable {O : Outside} {K : AtomicKeyspace} {fuel : ℕ}

/-- A keyspace's own reads. -/
theorem allowsReads_of {P : Req → Prop} (h : ∀ r, K.Reads r → P r) : Key.AllowsReads K P where
  get _ hq := h _ (.object hq)
  chunk name i v digest := h _ (.chunk name i v digest)
  list after n := h _ (.list after n)

theorem SpaceCall.reads (c : SpaceCall) : Key.AllowsReads K (c.Asks O K) := allowsReads_of fun _ => .inl

/-- After a check, what it found. -/
theorem under_check_bind {α β : Type} {A : (r : Req) → Resp r → Prop} {P : Req → Prop} {x : Except KeyspaceError α} {f : α → KeyOp β}
    (h : ∀ a, x = .ok a → (f a).run.Under A P fun _ => True) : (check x >>= f).run.Under A P fun _ => True := by
  cases x with
  | error e => trivial
  | ok a => exact h a rfl

theorem every_check_bind {α β : Type} {P : Req → Prop} {x : Except KeyspaceError α} {f : α → KeyOp β}
    (h : ∀ a, x = .ok a → (f a).run.Every P fun _ => True) : (check x >>= f).run.Every P fun _ => True :=
  Prog.under_true.1 (under_check_bind fun a ha => (h a ha).under)

theorem exists_key {name path : Str} (h : K.objectKey name = .ok path) : ∃ key : Key K, key.name = name :=
  ⟨⟨name, (AtomicKeyspace.objectKey_ok h).1 ▸ h⟩, rfl⟩

theorem allowsWrites_of {c : SpaceCall} {key : Key K} (hc : c.publishes = some key.name) (ho : Open key.name) :
    key.AllowsWrites O (c.Asks O K) where
  reads := c.reads
  chunk i v bytes := .inr (.chunk hc i v bytes)
  control d cond := .inr (.control hc ho d cond)
  evict e := .inr (.evict hc ho e)

theorem allowsDestroy_of {key : Key K} {cause actor : Str} {ts : UInt64} :
    key.AllowsDestroy ((SpaceCall.destroy key.name cause actor ts).Asks O K) where
  reads := SpaceCall.reads _
  tombstone d := .inr (.tombstone d)
  counter d cond := .inr (.counter d cond)
  remove e := .inr (.remove e)

/-- A write refuses a reserved key and a key it cannot address before it asks anything. -/
theorem every_of_open {α : Type} {P : Req → Prop} {name : Str} {p : KeyOp α}
    (hreserved : ∀ e, ensureNotReservedKey name = .error e → p.run.Every P fun _ => True)
    (hinvalid : ∀ e, ensureNotReservedKey name = .ok () → K.objectKey name = .error e → p.run.Every P fun _ => True)
    (hkey : ∀ key : Key K, key.name = name → Open name → p.run.Every P fun _ => True) : p.run.Every P fun _ => True := by
  cases ho : ensureNotReservedKey name with
  | error e => exact hreserved e ho
  | ok u =>
    cases hp : K.objectKey name with
    | error e => exact hinvalid e ho hp
    | ok path =>
      obtain ⟨key, hk⟩ := exists_key hp
      exact hkey key hk ho

theorem asks_create (name : Str) (value : Bytes) (commitIds : ℕ → Bytes) :
    (create O K fuel name value commitIds).run.Every ((SpaceCall.create name value commitIds).Asks O K) fun _ => True := by
  refine @every_of_open K _ _ name _ (fun e ho => ?_) (fun e ho hp => ?_) fun key hk ho => ?_
  · rw [create, ho]
    trivial
  · rw [create, ho, hp]
    refine every_check_bind fun _ _ => ?_
    split <;> trivial
  · subst hk
    exact Key.every_create O (allowsWrites_of rfl ho) ..

theorem asks_compareExchange (name : Str) (expectedEtag : Etag) (value commitId : Bytes) :
    (compareExchange O K fuel name expectedEtag value commitId).run.Every
      ((SpaceCall.compareExchange name expectedEtag value commitId).Asks O K) fun _ => True := by
  refine @every_of_open K _ _ name _ (fun e ho => ?_) (fun e ho hp => ?_) fun key hk ho => ?_
  · rw [compareExchange, ho]
    trivial
  · rw [compareExchange, ho, hp]
    refine every_check_bind fun _ _ => ?_
    split <;> trivial
  · subst hk
    exact Key.every_compareExchange O (allowsWrites_of rfl ho) ..

theorem asks_streamCreate (name : Str) (bufs : List Bytes) (commitId : Bytes) :
    (streamCreate O K fuel name bufs commitId).run.Every ((SpaceCall.streamCreate name bufs commitId).Asks O K)
      fun _ => True := by
  refine @every_of_open K _ _ name _ (fun e ho => ?_) (fun e ho hp => ?_) fun key hk ho => ?_
  · rw [streamCreate, beginStreamCreate, ho]
    trivial
  · rw [streamCreate, beginStreamCreate, ho, hp]
    trivial
  · subst hk
    exact Key.every_streamCreate O (allowsWrites_of rfl ho) ..

theorem asks_streamCompareExchange (name : Str) (expectedEtag : Etag) (bufs : List Bytes) (commitId : Bytes) :
    (streamCompareExchange O K fuel name expectedEtag bufs commitId).run.Every
      ((SpaceCall.streamCompareExchange name expectedEtag bufs commitId).Asks O K) fun _ => True := by
  refine @every_of_open K _ _ name _ (fun e ho => ?_) (fun e ho hp => ?_) fun key hk ho => ?_
  · rw [streamCompareExchange, beginStreamCompareExchange, ho]
    trivial
  · rw [streamCompareExchange, beginStreamCompareExchange, ho, hp]
    trivial
  · subst hk
    exact Key.every_streamCompareExchange O (allowsWrites_of rfl ho) ..

theorem asks_destroy (name cause actor : Str) (ts : UInt64) :
    (destroy O K name cause actor ts).run.Every ((SpaceCall.destroy name cause actor ts).Asks O K) fun _ => True := by
  cases hp : K.objectKey name with
  | error e =>
    rw [destroy, prepareDestroy, hp]
    trivial
  | ok path =>
    obtain ⟨key, rfl⟩ := exists_key hp
    exact Key.every_destroy O allowsDestroy_of ..

/-! ### Deletes and trims -/

theorem every_delete {P : Req → Prop} {name : Str}
    (h : ∀ key : Key K, key.name = name → Open name → P (.delete key.slots.control)) :
    (delete K name).run.Every P fun _ => True := by
  refine every_check_bind fun _ ho => every_check_bind fun path hp => ?_
  obtain ⟨key, hk⟩ := exists_key hp
  obtain ⟨rfl, -⟩ := AtomicKeyspace.objectKey_ok hp
  have hd := h key hk ho
  subst hk
  refine Op.every_ask_bind.2 ⟨hd, ?_⟩
  rintro (e | u) <;> trivial

theorem asks_deleteIfMatch (name : Str) (expectedEtag : Etag) :
    (deleteIfMatch O K name expectedEtag).run.Every ((SpaceCall.deleteIfMatch name expectedEtag).Asks O K)
      fun _ => True := by
  refine every_check_bind fun _ ho => every_check_bind fun path hp => ?_
  obtain ⟨key, rfl⟩ := exists_key hp
  obtain ⟨rfl, hv⟩ := AtomicKeyspace.objectKey_ok hp
  have hread := (SpaceCall.reads (O := O) (K := K) (.deleteIfMatch key.name expectedEtag)).valid hv
  refine Op.every_ask_bind.2 ⟨.inr (.deleteIf ho _), ?_⟩
  rintro ((_ | _ | _) | u)
  any_goals trivial
  exact Prog.every_bind_trivial (Key.every_observedEtag hread) fun _ =>
    Prog.every_bind_trivial (Key.every_observedEra O _ hread) fun _ => trivial

theorem asks_deleteEach {all : List Str} (keys : List Str) (h : ∀ name ∈ keys, name ∈ all) :
    (deleteEach K keys).run.Every ((SpaceCall.deleteMany all).Asks O K) fun _ => True := by
  induction keys with
  | nil => trivial
  | cons name keys ih =>
    refine Op.every_attempt_bind (every_delete fun key hk ho => ?_) fun r => ?_
    · subst hk
      exact .inr (.delete (h _ List.mem_cons_self) ho)
    have hrest : ∀ deleted : Bool, (deleteEach K keys >>= fun outcomes =>
        (pure (⟨name, deleted⟩ :: outcomes) : KeyOp (List DeleteOutcome))).run.Every _ fun _ => True := fun _ =>
      Prog.every_bind_trivial (ih fun n hn => h n (List.mem_cons_of_mem _ hn)) fun _ => trivial
    rcases r with e | u
    · cases e <;> first | exact hrest false | trivial
    · exact hrest true

theorem open_of_admitObjects {seen keys : List Str} (h : admitObjects K seen keys = .ok ()) {name : Str}
    (hn : name ∈ keys) : Open name ∧ ValidPath name := by
  induction keys generalizing seen with
  | nil => cases hn
  | cons key keys ih =>
    rw [admitObjects] at h
    split at h
    · cases h
    next ho =>
    split at h
    · cases h
    next path hp =>
    split at h
    · cases h
    rcases List.mem_cons.1 hn with rfl | hn
    · exact ⟨ho, (AtomicKeyspace.objectKey_ok hp).2⟩
    · exact ih h hn

theorem asks_deleteChunks {keys : List Str} (chunks : List (List Str))
    (h : ∀ part ∈ chunks, ∀ name ∈ part, name ∈ keys ∧ Open name ∧ ValidPath name) :
    (deleteChunks K chunks).run.Every ((SpaceCall.deleteObjects keys).Asks O K) fun _ => True := by
  induction chunks with
  | nil => trivial
  | cons part chunks ih =>
    refine Op.every_ask_bind.2 ⟨.inr (.deleteObjects (h part List.mem_cons_self)), fun x => ?_⟩
    have htail := ih fun part' hp => h part' (List.mem_cons_of_mem _ hp)
    dsimp only
    split
    · trivial
    · exact Prog.every_bind_trivial htail fun _ => trivial

theorem asks_deleteObjects (keys : List Str) :
    (deleteObjects K keys).run.Every ((SpaceCall.deleteObjects keys).Asks O K) fun _ => True := by
  unfold deleteObjects
  split
  · trivial
  split
  · trivial
  next hadmit =>
  refine asks_deleteChunks _ fun part hp name hn => ?_
  have hmem : name ∈ keys := by
    rw [← flatten_toChunks (show 0 < deleteObjectsMaxKeys by decide) keys]
    exact List.mem_flatten.2 ⟨part, hp, hn⟩
  exact ⟨hmem, open_of_admitObjects hadmit hmem⟩

theorem every_certify {P : Req → Prop} (hP : Key.AllowsReads K P) {scope certPrefix : Str} {firstRetained : UInt64}
    (h : ValidPath (certPrefix ++ seqComponent firstRetained) →
      P (.put (K.root ++ (certPrefix ++ seqComponent firstRetained)) certificateBytes none)) :
    (certify K fuel scope certPrefix firstRetained).run.Every P fun _ => True := by
  refine every_check_bind fun path hp => ?_
  obtain ⟨rfl, hv⟩ := AtomicKeyspace.objectKey_ok hp
  have hfloor : (trimFloor K fuel scope >>= fun floor =>
      (pure ⟨floor.getD firstRetained, floor.getD firstRetained = firstRetained⟩ : KeyOp TrimState)).run.Every P
        fun _ => True := Prog.every_bind_trivial (Key.every_trimFloor hP ..) fun _ => trivial
  refine Op.every_ask_bind.2 ⟨h hv, ?_⟩
  rintro ((_ | _ | _) | u)
  · trivial
  · exact hfloor
  · trivial
  · exact hfloor

theorem asks_proposeTrim (scope : Str) (firstRetained : UInt64) :
    (proposeTrim K fuel scope firstRetained).run.Every ((SpaceCall.proposeTrim scope firstRetained).Asks O K)
      fun _ => True := by
  refine every_check_bind fun certPrefix hs => ?_
  have hcertify := @every_certify _ fuel _ (SpaceCall.reads (O := O) (K := K) (.proposeTrim scope firstRetained)) scope certPrefix firstRetained
    fun hv => .inr (.certify hs hv)
  refine Prog.every_bind_trivial (Key.every_trimFloor (SpaceCall.reads _) ..) ?_
  rintro (_ | certified)
  · exact hcertify
  · dsimp only
    split
    · trivial
    split
    · trivial
    · exact hcertify

/-- What a page of a sweep's walk adds is below the floor, and not position 0. -/
def Swept (pfx : Str) (firstRetained : UInt64) (key : Str) : Prop :=
  ∃ seq, key = pfx ++ seqComponent seq ∧ 0 < seq ∧ seq < firstRetained

theorem swept_of_sweepPage {pfx : Str} {firstRetained : UInt64} {stepsOverZero : Bool} {keys : List Str}
    {after : Option Str} {pending : List Str} {P : Str → Prop} (hp : ∀ key ∈ pending, P key)
    (hs : ∀ key, Swept pfx firstRetained key → P key) :
    (∀ final, sweepPage pfx firstRetained stepsOverZero keys after pending = .inl final → ∀ key ∈ final, P key) ∧
      ∀ last soFar, sweepPage pfx firstRetained stepsOverZero keys after pending = .inr (last, soFar) →
        ∀ key ∈ soFar, P key := by
  induction keys generalizing after pending with
  | nil =>
    refine ⟨nofun, ?_⟩
    rintro last soFar h
    cases h
    exact hp
  | cons key keys ih =>
    rw [sweepPage]
    split
    · refine ⟨?_, nofun⟩
      rintro final h
      cases h
      exact hp
    next seq hseq =>
    split
    · exact ih hp
    split
    · refine ⟨?_, nofun⟩
      rintro final h
      cases h
      exact hp
    next hlt =>
    obtain ⟨rest, hrest, hparse⟩ := Option.bind_eq_some_iff.1 hseq
    rw [not_or] at hlt
    have hkey : key = pfx ++ seqComponent seq := by
      rw [stripPrefix_eq_some.1 hrest, seqComponent_of_parse hparse]
    refine ih fun k hk => ?_
    rcases List.mem_append.1 hk with hk | hk
    · exact hp k hk
    · rw [List.mem_singleton.1 hk]
      exact hs key ⟨seq, hkey, UInt64.pos_iff_ne_zero.2 hlt.1, UInt64.not_le.1 hlt.2⟩

theorem every_sweepWalk {P : Req → Prop} (hP : Key.AllowsReads K P) {pfx : Str} {firstRetained : UInt64}
    {stepsOverZero : Bool} {R : Str → Prop} (hs : ∀ key, Swept pfx firstRetained key → R key) (after : Option Str)
    {pending : List Str} (hp : ∀ key ∈ pending, R key) :
    (sweepWalk K pfx firstRetained stepsOverZero fuel after pending).run.Every P fun r =>
      ∀ keys, r = .ok keys → ∀ key ∈ keys, R key := by
  induction fuel generalizing after pending with
  | zero => trivial
  | succ fuel ih =>
    refine Prog.every_bindE.2 ((Key.every_listAfter hP ..).imp ?_)
    rintro (e | keys) -
    · exact nofun
    dsimp only [Prog.OnOk]
    split
    · rintro _ ⟨⟩
      exact hp
    have hpage := @swept_of_sweepPage _ _ stepsOverZero keys after _ _ hp hs
    split
    · next final hfinal =>
      rintro _ ⟨⟩
      exact hpage.1 final hfinal
    · next last soFar hsoFar => exact ih last (hpage.2 last soFar hsoFar)

theorem every_sweepDeletes {P : Req → Prop} (keys : List Str) (report : DeleteBelowReport)
    (h : ∀ key ∈ keys, ValidPath key → P (.delete (K.root ++ key))) :
    (sweepDeletes K keys report).run.Every P fun _ => True := by
  induction keys generalizing report with
  | nil => trivial
  | cons key keys ih =>
    refine every_check_bind fun path hp => ?_
    obtain ⟨rfl, hv⟩ := AtomicKeyspace.objectKey_ok hp
    refine Op.every_ask_bind.2 ⟨h key List.mem_cons_self hv, ?_⟩
    rintro (e | u) <;> exact ih _ fun k hk => h k (List.mem_cons_of_mem _ hk)

theorem asks_deleteBelow (scope dataPrefix : Str) (firstRetained : UInt64) :
    (deleteBelow K fuel scope dataPrefix firstRetained).run.Every
      ((SpaceCall.deleteBelow scope dataPrefix firstRetained).Asks O K) fun _ => True := by
  have hreads := SpaceCall.reads (O := O) (K := K) (.deleteBelow scope dataPrefix firstRetained)
  let R : Str → Prop := fun key => ∃ pfx ∈ sweptPrefixes dataPrefix, Swept pfx firstRetained key
  have hR : ∀ pfx ∈ sweptPrefixes dataPrefix, ∀ key, Swept pfx firstRetained key → R key := fun pfx hp key hk => ⟨pfx, hp, hk⟩
  refine every_check_bind fun _ _ => Prog.every_bind_trivial (Key.every_trimFloor hreads ..) fun certified => ?_
  split
  · trivial
  refine every_check_bind fun _ _ => ?_
  -- the three walks, each on top of what the ones before it found
  refine Prog.every_bindE.2 ((every_sweepWalk hreads (hR dataPrefix (by simp [sweptPrefixes])) _ (by simp)).imp ?_)
  rintro (e | data) hdata
  · trivial
  refine Prog.every_bindE.2 ((every_sweepWalk hreads (hR (tombstoneKey dataPrefix) (by simp [sweptPrefixes])) _
    (hdata data rfl)).imp ?_)
  rintro (e | tombstones) htombstones
  · trivial
  refine Prog.every_bindE.2 ((every_sweepWalk hreads (hR (incarnationKey dataPrefix) (by simp [sweptPrefixes])) _
    (htombstones tombstones rfl)).imp ?_)
  rintro (e | all) hall
  · trivial
  refine every_sweepDeletes all _ fun key hk hv => ?_
  obtain ⟨pfx, hp, seq, rfl, h0, hlt⟩ := hall all rfl key hk
  exact .inr (.sweep hp h0 hlt hv)

/-! ### Maintenance -/

theorem asks_setMaintenanceFence (commitId : Bytes) :
    (setMaintenanceFence K commitId).run.Every ((SpaceCall.setMaintenanceFence commitId).Asks O K) fun _ => True := by
  refine Op.every_ask_bind.2 ⟨.inr (.setFence commitId), ?_⟩
  rintro ((_ | _ | _) | u) <;> trivial

theorem asks_releaseMaintenanceFence :
    (releaseMaintenanceFence K).run.Every (SpaceCall.releaseMaintenanceFence.Asks O K) fun _ => True := by
  refine Op.every_ask_bind.2 ⟨(SpaceCall.reads _).fence, ?_⟩
  rintro ((_ | _ | _) | ⟨data, _ | e⟩)
  any_goals trivial
  refine Op.every_ask_bind.2 ⟨.inr (.releaseFence e), ?_⟩
  rintro ((_ | _ | _) | u) <;> trivial

section
variable {P : Req → Prop} (hP : Key.AllowsReads K P)
include hP

theorem every_referencedChunks (rootTrimFloor : Option UInt64) (name : Str) :
    (referencedChunks O K rootTrimFloor name).run.Every P fun _ => True := by
  refine every_check_bind fun path hp => ?_
  obtain ⟨rfl, hv⟩ := AtomicKeyspace.objectKey_ok hp
  split
  · trivial
  refine Op.every_ask_bind.2 ⟨hP.valid hv, ?_⟩
  rintro ((_ | _ | _) | ⟨bytes, e⟩)
  any_goals trivial
  dsimp only
  split <;> trivial

/-- Candidates are chunk paths of the page that name a key of this namespace. -/
theorem every_classifyKeys (rootTrimFloor : Option UInt64) {R : Str → Prop} (groups : List (Str × List Str))
    (hg : ∀ group ∈ groups, ∀ path ∈ group.2, R path) (acc : PageClassification) (ha : ∀ path ∈ acc.orphanCandidates, R path) :
    (classifyKeys O K rootTrimFloor groups acc).run.Every P fun r =>
      ∀ c, r = .ok c → ∀ path ∈ c.orphanCandidates, R path := by
  induction groups generalizing acc with
  | nil =>
    rintro _ ⟨⟩
    exact ha
  | cons group groups ih =>
    have hgroups := fun g hm => hg g (List.mem_cons_of_mem _ hm)
    refine Prog.every_bindE.2 ((every_referencedChunks hP ..).imp ?_)
    rintro (e | _ | referenced) -
    · exact nofun
    · exact ih hgroups _ ha
    · refine ih hgroups _ fun path hp => ?_
      rcases List.mem_append.1 hp with hp | hp
      · exact ha path hp
      · exact hg group List.mem_cons_self path (List.mem_filter.1 hp).1

theorem every_classifyChunkPage (paths : List Str) :
    (classifyChunkPage O K fuel paths).run.Every P fun r =>
      ∀ c, r = .ok c → ∀ path ∈ c.orphanCandidates, ∃ key, logicalKeyOf K path = some key := by
  refine Prog.every_bindE.2 ((Key.every_trimFloor hP ..).imp ?_)
  rintro (e | floor) -
  · exact nofun
  refine every_classifyKeys hP floor (byKey K paths) (fun group hg path hp => ?_) ⟨0, [], _⟩ (by simp)
  obtain ⟨key, -, rfl⟩ := List.mem_map.1 hg
  exact ⟨key, by simpa using (List.mem_filter.1 hp).2⟩

omit hP in
theorem every_listChunkPage (hs : ∀ after n, P (.listSizes K.chunkRootPrefix after n)) (after : Option Str) :
    (listChunkPage K after).run.Every P fun _ => True := by
  refine Op.every_ask_bind.2 ⟨hs _ _, ?_⟩
  rintro (e | page) <;> trivial

theorem every_inventoryLoop (hs : ∀ after n, P (.listSizes K.chunkRootPrefix after n)) (floorFuel : ℕ)
    (after : Option Str) (inventory : ChunkInventory) :
    (inventoryLoop O K floorFuel fuel after inventory).run.Every P fun _ => True := by
  induction fuel generalizing after inventory with
  | zero => trivial
  | succ fuel ih =>
    refine Prog.every_bind_trivial (every_listChunkPage hs after) fun page => ?_
    split
    · trivial
    refine Prog.every_bind_trivial ((every_classifyChunkPage hP _).imp fun _ _ => trivial) fun c => ?_
    dsimp only
    split
    · trivial
    · exact ih ..

end

theorem every_deleteOrphans {P : Req → Prop} (paths : List Str) (report : ChunkSweepReport)
    (h : ∀ path ∈ paths, P (.delete path)) : (deleteOrphans paths report).run.Every P fun _ => True := by
  induction paths generalizing report with
  | nil => trivial
  | cons path paths ih =>
    refine Op.every_ask_bind.2 ⟨h path List.mem_cons_self, ?_⟩
    rintro (e | u) <;> exact ih _ fun p hp => h p (List.mem_cons_of_mem _ hp)

theorem every_sweepLoop {P : Req → Prop} (hP : Key.AllowsReads K P)
    (hs : ∀ after n, P (.listSizes K.chunkRootPrefix after n))
    (hd : ∀ path key, logicalKeyOf K path = some key → P (.delete path)) (floorFuel : ℕ) (after : Option Str)
    (report : ChunkSweepReport) : (sweepLoop O K floorFuel fuel after report).run.Every P fun _ => True := by
  induction fuel generalizing after report with
  | zero => trivial
  | succ fuel ih =>
    refine Prog.every_bind_trivial (every_listChunkPage hs after) fun page => ?_
    split
    · trivial
    refine Prog.every_bindE.2 ((every_classifyChunkPage hP _).imp ?_)
    rintro (e | c) hc
    · trivial
    refine Prog.every_bind_trivial (every_deleteOrphans _ _ fun path hp => ?_) fun report => ?_
    · obtain ⟨key, hk⟩ := hc c rfl path hp
      exact hd path key hk
    · split
      · trivial
      · exact ih ..

theorem asks_sweepChunks : (sweepChunks O K fuel).run.Every (SpaceCall.sweepChunks.Asks O K) fun _ => True := by
  refine Prog.every_bind_trivial (Key.every_fencePresent (SpaceCall.reads _)) ?_
  rintro (_ | _)
  · trivial
  · exact every_sweepLoop (SpaceCall.reads _) (fun after n => .inl (.sizes after n))
      (fun path key hk => .inr (.sweepChunk hk)) ..

/-- Every call asks only what it may. -/
theorem SpaceCall.asks (c : SpaceCall) : (c.prog O K fuel).Every (c.Asks O K) fun _ => True := by
  cases c with
  | create key value commitIds => exact asks_create ..
  | compareExchange key expectedEtag value commitId => exact asks_compareExchange ..
  | streamCreate key bufs commitId => exact asks_streamCreate ..
  | streamCompareExchange key expectedEtag bufs commitId => exact asks_streamCompareExchange ..
  | destroy key cause actor ts => exact asks_destroy ..
  | get key => exact Key.every_get O (SpaceCall.reads _) key
  | getWithEtag key => exact Key.every_getWithEtag O (SpaceCall.reads _) key
  | openStream key => exact Key.every_openStream O (SpaceCall.reads _) key
  | readState key => exact Key.every_readState O (SpaceCall.reads _) fuel key
  | readStateStream key => exact Key.every_readStateStream O (SpaceCall.reads _) fuel key
  | currentIncarnation key => exact Key.every_currentIncarnation (SpaceCall.reads _) key
  | listAfter startAfter limit => exact Key.every_listAfter (SpaceCall.reads _) startAfter limit
  | delete key =>
    refine every_delete fun k hk ho => ?_
    subst hk
    exact .inr (.delete List.mem_cons_self ho)
  | deleteIfMatch key expectedEtag => exact asks_deleteIfMatch ..
  | deleteMany keys => exact every_check_bind fun _ _ => asks_deleteEach keys fun _ => id
  | deleteObjects keys => exact asks_deleteObjects keys
  | proposeTrim scope firstRetained => exact asks_proposeTrim ..
  | trimFloor scope => exact Key.every_trimFloor (SpaceCall.reads _) fuel scope
  | deleteBelow scope dataPrefix firstRetained => exact asks_deleteBelow ..
  | setMaintenanceFence commitId => exact asks_setMaintenanceFence commitId
  | releaseMaintenanceFence => exact asks_releaseMaintenanceFence
  | fencePresent => exact Key.every_fencePresent (SpaceCall.reads _)
  | chunkInventory => exact every_inventoryLoop (SpaceCall.reads _) (fun after n => .inl (.sizes after n)) ..
  | sweepChunks => exact asks_sweepChunks

end

/-! ### Sessions -/

/-- One public operation through a handle, from call to return. -/
def Called (O : Outside) (K : AtomicKeyspace) (B : Backend) (s s' : Store) : Prop :=
  ∃ fuel c res, (SpaceCall.prog O K fuel c).Runs B.exec s res s'

/-- The bucket after some calls, each alone on the honest backend, if all of them return. -/
def session (O : Outside) (K : AtomicKeyspace) (fuel : ℕ) : List SpaceCall → Store → Option Store
  | [], s => some s
  | c :: cs, s =>
    match (c.prog O K fuel).eval (Store.serve contentTag) s with
    | (some _, s') => session O K fuel cs s'
    | (none, _) => none

theorem called_of_session {O : Outside} {K : AtomicKeyspace} {fuel : ℕ} {cs : List SpaceCall} {s t : Store}
    (h : session O K fuel cs s = some t) : Relation.ReflTransGen (Called O K .honest) s t := by
  induction cs generalizing s with
  | nil =>
    cases h
    exact .refl
  | cons c cs ih =>
    rw [session] at h
    split at h
    · next res s' hc => exact .head ⟨fuel, c, res, Prog.runs_of_eval Backend.exec_honest hc⟩ (ih h)
    · cases h

end YeetzS3.Keyspace
