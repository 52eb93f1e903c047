import YeetzS3.Keyspace.OneKey

/-!
# What the operations of a key may ask

For every program of the keyspace, the requests it may make whatever it is answered. A predicate on
requests that allows them is allowed for the whole program: that an operation never moves the counter,
never publishes, or leaves the objects of the key alone is then a fact about single requests.
-/

namespace YeetzS3.Keyspace.Key

open Conc

variable {K : AtomicKeyspace} (key : Key K)

/-! ### Reads -/

/-- `P` allows every read of the keyspace: of the objects under its root, of its chunks, and of its list of keys. -/
structure AllowsReads (K : AtomicKeyspace) (P : Req → Prop) : Prop where
  get : ∀ q, wireSegments q ≠ [] → P (.get (K.root ++ q))
  chunk : ∀ name i v digest, P (.get (chunkObjectKey K.ns name i v digest))
  list : ∀ after n, P (.list K.root after n)

section
variable {α : Type} (O : Outside) {P : Req → Prop}

theorem every_check {x : Except KeyspaceError α} : (check x).run.Every P fun _ => True := by
  cases x <;> trivial

/-- Where a key lives, once it was checked. -/
theorem every_checkPath (name : Str) :
    (check (K.objectKey name)).run.Every P fun r => ∀ path, r = .ok path → path = K.root ++ name ∧ ValidPath name := by
  cases h : K.objectKey name with
  | error e => exact nofun
  | ok path =>
    rintro _ ⟨⟩
    exact AtomicKeyspace.objectKey_ok h

variable (hP : AllowsReads K P)
include hP

theorem AllowsReads.valid {name : Str} (hn : ValidPath name) : P (.get (K.root ++ name)) :=
  hP.get _ (wireSegments_ne_nil hn)

theorem AllowsReads.counter (name : Str) : P (.get (K.root ++ incarnationKey name)) :=
  hP.get _ (wireSegments_mirror_ne_nil (by decide) (by decide))

theorem AllowsReads.tombstone (name : Str) : P (.get (K.root ++ tombstoneKey name)) :=
  hP.get _ (wireSegments_mirror_ne_nil (by decide) (by decide))

theorem AllowsReads.fence : P (.get K.fenceObjectKey) := by
  have h : K.fenceObjectKey = K.root ++ ("fences".toList ++ '/' :: "gc".toList) := by
    rw [AtomicKeyspace.fenceObjectKey, List.append_assoc]
  rw [h]
  exact hP.get _ (by decide)

theorem every_fetchAllChunks (name : Str) (incarnation version : UInt64) (entries : List ManifestEntry) (ordinal : ℕ) :
    (fetchAllChunks O K name incarnation version entries ordinal).run.Every P fun _ => True := by
  induction entries generalizing ordinal with
  | nil => trivial
  | cons entry entries ih =>
    refine Prog.every_bind_trivial ?_ fun bytes => Prog.every_bind_trivial (ih _) fun _ => trivial
    refine Op.every_ask_bind.2 ⟨hP.chunk _ _ _ _, ?_⟩
    rintro ((_ | _ | _) | ⟨bytes, e⟩)
    any_goals trivial
    dsimp only
    split <;> trivial

theorem every_collectValue (name : Str) (controlBytes : Bytes) :
    (collectValue O K name controlBytes).run.Every P fun _ => True := by
  refine Prog.every_bind_trivial every_check ?_
  rintro (envelope | manifest)
  · trivial
  · exact every_fetchAllChunks O hP ..

theorem every_listAfter (after : Option Str) (limit : ℕ) : (listAfter K after limit).run.Every P fun _ => True := by
  unfold listAfter
  split
  · trivial
  refine Prog.every_bind_trivial every_check fun _ => Op.every_ask_bind.2 ⟨hP.list _ _, ?_⟩
  rintro (e | keys) <;> trivial

theorem every_trimFloor (fuel : ℕ) (scope : Str) : (trimFloor K fuel scope).run.Every P fun _ => True := by
  have hloop : ∀ certPrefix fuel after floor, (trimFloorLoop K certPrefix fuel after floor).run.Every P fun _ => True := by
    intro certPrefix fuel
    induction fuel with
    | zero => exact fun _ _ => trivial
    | succ fuel ih =>
      refine fun after floor => Prog.every_bind_trivial (every_listAfter hP ..) fun keys => ?_
      split
      · trivial
      · split
        · trivial
        · exact ih ..
  exact Prog.every_bind_trivial every_check fun _ => hloop ..

theorem every_seqRetired (fuel : ℕ) (name : Str) : (seqRetired K fuel name).run.Every P fun _ => True :=
  Prog.every_bind_trivial (every_trimFloor hP ..) fun _ => trivial

omit hP in
theorem every_observedEtag {path : Str} (hp : P (.get path)) : (observedEtag path).run.Every P fun _ => True := by
  refine Op.every_ask_bind.2 ⟨hp, ?_⟩
  rintro (e | ⟨bytes, e⟩) <;> trivial

omit hP in
theorem every_observedEra (name : Str) {path : Str} (hp : P (.get path)) :
    (observedEra O name path).run.Every P fun _ => True := by
  refine Op.every_ask_bind.2 ⟨hp, ?_⟩
  rintro (e | ⟨bytes, e⟩)
  · trivial
  · dsimp only
    split <;> trivial

theorem every_casConflict (name : Str) (expected : Etag) : (casConflict O K name expected).run.Every P fun _ => True := by
  unfold casConflict
  split
  · trivial
  · next path hpath =>
    obtain ⟨rfl, hv⟩ := AtomicKeyspace.objectKey_ok hpath
    exact Prog.every_bind_trivial (every_observedEtag (hP.valid hv)) fun _ =>
      Prog.every_bind_trivial (every_observedEra O _ (hP.valid hv)) fun _ => trivial

omit hP in
theorem every_verifyChunk {path : Str} (hp : P (.get path)) (name : Str) (entry : ManifestEntry) (ordinal : ℕ) :
    (verifyChunk O path name entry ordinal).run.Every P fun _ => True := by
  refine Op.every_ask_bind.2 ⟨hp, ?_⟩
  rintro ((_ | _ | _) | ⟨bytes, e⟩)
  any_goals trivial
  dsimp only
  split <;> trivial

theorem every_fencePresent : (fencePresent K).run.Every P fun _ => True := by
  refine Op.every_ask_bind.2 ⟨hP.fence, ?_⟩
  rintro ((_ | _ | _) | ⟨bytes, e⟩) <;> trivial

theorem every_ensureUnfenced (name : Str) : (ensureUnfenced K name).run.Every P fun _ => True := by
  refine Prog.every_bind_trivial (every_fencePresent hP) ?_
  rintro (_ | _) <;> trivial

theorem every_adjudicate (fuel : ℕ) (name : Str) {path : Str} (hp : P (.get path)) (manifest : ValueManifest) :
    (adjudicateManifestPut O K fuel name path manifest).run.Every P fun _ => True := by
  refine Prog.every_bind_trivial (every_seqRetired hP ..) ?_
  rintro (_ | _)
  swap
  · trivial
  refine Op.every_ask_bind.2 ⟨hp, ?_⟩
  rintro ((_ | _ | _) | ⟨bytes, e⟩)
  any_goals trivial
  refine Prog.every_bind_trivial every_check fun control => ?_
  split
  · split
    · split <;> trivial
    · trivial
  · trivial

theorem every_readTombstone (name : Str) (operation : String) :
    (readTombstone O K name operation).run.Every P fun _ => True := by
  refine Op.every_ask_bind.2 ⟨hP.tombstone _, ?_⟩
  rintro ((_ | _ | _) | ⟨bytes, e⟩)
  any_goals trivial
  exact Prog.every_bind_trivial every_check fun _ => trivial

end

/-! ### Staging -/

section
variable {P : Req → Prop} (O : Outside) (hP : AllowsReads K P) {name : Str}
  (hc : ∀ i v bytes, P (.put (chunkObjectKey K.ns name i v (hashEntry O bytes).digestHex) bytes none))
include hP hc

/-- A chunk is put under the digest of its bytes. -/
theorem every_putChunk (i v : UInt64) (bytes : Bytes) (entry : ManifestEntry) (ordinal : ℕ) (tries : ℕ) :
    (putChunk O (chunkObjectKey K.ns name i v (hashEntry O bytes).digestHex) name entry ordinal bytes tries).run.Every
      P fun _ => True := by
  induction tries with
  | zero => trivial
  | succ tries ih =>
    refine Op.every_ask_bind.2 ⟨hc _ _ _, ?_⟩
    rintro (e | y)
    · refine Op.every_attempt_bind (every_verifyChunk O (hP.chunk _ _ _ _) ..) ?_
      rintro (e | u)
      · cases e <;> first | exact ih | trivial
      · trivial
    · trivial

theorem every_putChunks (i v : UInt64) (chunks : List Bytes) (ordinal : ℕ) :
    (putChunks O K name i v chunks ordinal).run.Every P fun _ => True := by
  induction chunks generalizing ordinal with
  | nil => trivial
  | cons bytes rest ih => exact Prog.every_bind_trivial (every_putChunk O hP hc ..) fun _ => ih _

/-- A manifest is of the generation it was staged for. -/
theorem every_stageChunks (value : Bytes) (i v : UInt64) (commitId : Bytes) :
    (stageChunks O K name value i v commitId).run.Every P fun r => ∀ m, r = .ok m → m.incarnation = i ∧ m.version = v := by
  refine Prog.every_bindE.2 ((every_putChunks O hP hc ..).imp ?_)
  rintro (err | u) -
  · rintro m ⟨⟩
  · rintro m ⟨⟩
    exact ⟨rfl, rfl⟩

/-- A writer keeps its generation. -/
def SameGeneration (w : ValueWriter) (r : Except KeyspaceError ValueWriter) : Prop :=
  ∀ w', r = .ok w' → w'.incarnation = w.incarnation ∧ w'.version = w.version

theorem every_writeBuffer (w : ValueWriter) (buf : Bytes) :
    (writeBuffer O K name w buf).run.Every P (SameGeneration w) := by
  unfold writeBuffer
  split
  · rintro w' ⟨⟩
  refine Prog.every_bindE.2 ((every_putChunks O hP hc ..).imp ?_)
  rintro (err | u) -
  · rintro w' ⟨⟩
  · rintro w' ⟨⟩
    exact ⟨rfl, rfl⟩

theorem every_writeAll (w : ValueWriter) (bufs : List Bytes) :
    (writeAll O K name w bufs).run.Every P (SameGeneration w) := by
  induction bufs generalizing w with
  | nil =>
    rintro w' ⟨⟩
    exact ⟨rfl, rfl⟩
  | cons buf bufs ih =>
    refine Prog.every_bindE.2 ((every_writeBuffer O hP hc ..).imp ?_)
    rintro (err | w₁) hw₁
    · rintro w' ⟨⟩
    · obtain ⟨hi, hv⟩ := hw₁ w₁ rfl
      refine (ih w₁).imp fun r hr w' he => ?_
      obtain ⟨hi', hv'⟩ := hr w' he
      exact ⟨hi'.trans hi, hv'.trans hv⟩

theorem every_sealValue (w : ValueWriter) (commitId : Bytes) :
    (sealValue O K name w commitId).run.Every P fun r =>
      ∀ m, r = .ok m → m.incarnation = w.incarnation ∧ m.version = w.version := by
  have hentries : (sealEntries O K name w).run.Every P fun _ => True := by
    unfold sealEntries
    split
    · trivial
    · exact Prog.every_bind_trivial (every_putChunks O hP hc ..) fun _ => trivial
  refine Prog.every_bindE.2 (hentries.imp ?_)
  rintro (err | entries) -
  · rintro m ⟨⟩
  dsimp only [Prog.OnOk]
  split
  · rintro m ⟨⟩
    exact ⟨rfl, rfl⟩
  · rintro m ⟨⟩

end

/-! ### Everything an operation may ask -/

/-- `P` allows what a write of the key asks. -/
structure AllowsWrites (O : Outside) (P : Req → Prop) : Prop where
  reads : AllowsReads K P
  chunk : ∀ i v bytes, P (.put (chunkObjectKey K.ns key.name i v (hashEntry O bytes).digestHex) bytes none)
  control : ∀ d c, P (.put key.slots.control d c)
  evict : ∀ e, P (.deleteIf key.slots.control e)

/-- `P` allows what a destroy of the key asks. -/
structure AllowsDestroy (P : Req → Prop) : Prop where
  reads : AllowsReads K P
  tombstone : ∀ d, P (.put key.slots.tombstone d none)
  counter : ∀ d c, P (.put key.slots.counter d c)
  remove : ∀ e, P (.deleteIf key.slots.control e)

section
variable {P : Req → Prop} {key} (O : Outside) (hP : key.AllowsWrites O P)
include hP

omit hP in
theorem every_currentIncarnation (hP : AllowsReads K P) (name : Str) :
    (currentIncarnation K name).run.Every P fun _ => True := every_readCounter (hP.counter _)

omit hP in
/-- The control of a key is read as every object of the keyspace is. -/
theorem AllowsReads.control (hP : AllowsReads K P) : P (.get key.slots.control) := hP.valid key.valid

theorem every_evictStaleEra (i : UInt64) (encoded : Bytes) :
    (evictStaleEra K key.name key.slots.control i encoded).run.Every P fun _ => True := by
  refine Prog.every_bind_trivial (every_currentIncarnation hP.reads _) fun n => ?_
  split
  · trivial
  refine Op.every_ask_bind.2 ⟨hP.reads.control, ?_⟩
  rintro ((_ | _ | _) | ⟨data, _ | e⟩)
  any_goals trivial
  dsimp only
  split
  · refine Op.every_ask_bind.2 ⟨hP.evict _, ?_⟩
    rintro ((_ | _ | _) | u) <;> trivial
  · trivial

theorem every_finishValueCas (i : UInt64) (e : Etag) :
    (finishValueCasAfterPublish K key.name i e).run.Every P fun _ => True := by
  refine Prog.every_bind_trivial (every_currentIncarnation hP.reads _) fun n => ?_
  split
  · trivial
  rw [key.path]
  refine Op.every_ask_bind.2 ⟨hP.evict _, ?_⟩
  rintro ((_ | _ | _) | u) <;> trivial

theorem every_createInline (value : Bytes) (tries : ℕ) :
    (createInline K key.name key.slots.control value tries).run.Every P fun _ => True := by
  induction tries with
  | zero => trivial
  | succ tries ih =>
    refine Prog.every_bind_trivial (every_currentIncarnation hP.reads _) fun n => ?_
    refine Op.every_ask_bind.2 ⟨hP.control _ _, ?_⟩
    rintro ((_ | _ | _) | y)
    any_goals trivial
    refine Prog.every_bind_trivial (every_evictStaleEra O hP _ _) ?_
    rintro (_ | _ | e)
    · trivial
    · exact ih
    · trivial

theorem every_publishCreate (fuel : ℕ) (manifest : ValueManifest) :
    (publishCreate O K fuel key.name key.slots.control manifest).run.Every P fun _ => True := by
  have hadj : ∀ f : Ambiguity → KeyOp Etag, (∀ a, (f a).run.Every P fun _ => True) →
      (adjudicateManifestPut O K fuel key.name key.slots.control manifest >>= f).run.Every P fun _ => True :=
    fun f hf => Prog.every_bind_trivial (every_adjudicate O hP.reads _ _ hP.reads.control _) hf
  refine Op.every_ask_bind.2 ⟨hP.control _ _, ?_⟩
  rintro ((_ | _ | _) | _ | e)
  · refine hadj _ ?_
    rintro ((_ | e) | _ | _) <;> trivial
  · trivial
  · refine hadj _ ?_
    rintro ((_ | e) | _ | _) <;> trivial
  · trivial
  · trivial

theorem every_createChunked (fuel : ℕ) (value : Bytes) (commitIds : ℕ → Bytes) (tries : ℕ) :
    (createChunked O K fuel key.name key.slots.control value commitIds tries).run.Every P fun _ => True := by
  induction tries with
  | zero => trivial
  | succ tries ih =>
    refine Prog.every_bind_trivial (every_currentIncarnation hP.reads _) fun n => ?_
    refine Prog.every_bind_trivial ((every_stageChunks O hP.reads hP.chunk ..).imp fun _ _ => trivial) fun m => ?_
    refine Prog.every_bind_trivial (every_publishCreate O hP _ _) fun _ => ?_
    refine Prog.every_bind_trivial (every_evictStaleEra O hP _ _) ?_
    rintro (_ | _ | e)
    · trivial
    · exact ih
    · trivial

theorem every_create (fuel : ℕ) (value : Bytes) (commitIds : ℕ → Bytes) :
    (create O K fuel key.name value commitIds).run.Every P fun _ => True := by
  refine Prog.every_bind_trivial every_check fun _ => ?_
  split
  · trivial
  simp only [key.path, check, pure_bind]
  split
  · exact every_createChunked O hP ..
  · exact every_createInline O hP ..

theorem every_ensureOpenValueEra (n : UInt64) : (ensureOpenValueEra K key.name n).run.Every P fun _ => True := by
  refine Prog.every_bind_trivial (every_currentIncarnation hP.reads _) fun n => ?_
  split <;> trivial

theorem every_publishSuccessor (noEtag : String) (fuel : ℕ) (expected : Etag) (manifest : ValueManifest) :
    (publishSuccessor O K noEtag fuel key.name key.slots.control expected manifest).run.Every P fun _ => True := by
  have hcas : ∀ f : KeyspaceError → KeyOp Etag, (∀ e, (f e).run.Every P fun _ => True) →
      (casConflict O K key.name expected >>= f).run.Every P fun _ => True :=
    fun f hf => Prog.every_bind_trivial (every_casConflict O hP.reads ..) hf
  have hadj : ∀ f : Ambiguity → KeyOp Etag, (∀ a, (f a).run.Every P fun _ => True) →
      (adjudicateManifestPut O K fuel key.name key.slots.control manifest >>= f).run.Every P fun _ => True :=
    fun f hf => Prog.every_bind_trivial (every_adjudicate O hP.reads _ _ hP.reads.control _) hf
  refine Prog.every_bind_trivial (every_ensureOpenValueEra O hP _) fun _ => Op.every_ask_bind.2 ⟨hP.control _ _, ?_⟩
  rintro ((_ | _ | _) | _ | e)
  · refine hadj _ ?_
    rintro ((_ | e) | _ | _)
    · trivial
    · exact every_finishValueCas O hP _ _
    · exact hcas _ fun _ => trivial
    · trivial
  · exact hcas _ fun _ => trivial
  · refine hadj _ ?_
    rintro ((_ | e) | _ | _)
    · trivial
    · exact every_finishValueCas O hP _ _
    · exact hcas _ fun _ => trivial
    · trivial
  · trivial
  · exact every_finishValueCas O hP _ _

theorem every_bindSuccessor (operation : String) (expected : Etag) :
    (bindSuccessor O K operation key.name key.slots.control expected).run.Every P fun _ => True := by
  refine Op.every_ask_bind.2 ⟨hP.reads.control, ?_⟩
  rintro ((_ | _ | _) | ⟨data, _ | e⟩)
  any_goals trivial
  dsimp only
  split
  · exact Prog.every_bind_trivial (every_casConflict O hP.reads ..) fun _ => trivial
  · refine Prog.every_bind_trivial every_check fun control => ?_
    refine Prog.every_bind_trivial (every_ensureOpenValueEra O hP _) fun _ => ?_
    split <;> trivial

theorem every_compareExchange (fuel : ℕ) (expected : Etag) (value commitId : Bytes) :
    (compareExchange O K fuel key.name expected value commitId).run.Every P fun _ => True := by
  refine Prog.every_bind_trivial every_check fun _ => ?_
  split
  · trivial
  simp only [key.path, check, pure_bind]
  refine Prog.every_bind_trivial (every_bindSuccessor O hP ..) fun era => ?_
  split
  · exact Prog.every_bind_trivial ((every_stageChunks O hP.reads hP.chunk ..).imp fun _ _ => trivial) fun m =>
      every_publishSuccessor O hP ..
  · refine Op.every_ask_bind.2 ⟨hP.control _ _, ?_⟩
    rintro ((_ | _ | _) | _ | e)
    any_goals trivial
    · exact Prog.every_bind_trivial (every_casConflict O hP.reads ..) fun _ => trivial
    · exact every_finishValueCas O hP _ _

theorem every_streamed (w : ValueWriter) (bufs : List Bytes) (commitId : Bytes) {α : Type} {f : ValueManifest → KeyOp α}
    (hf : ∀ m, (f m).run.Every P fun _ => True) :
    (writeAll O K key.name w bufs >>= fun w => sealValue O K key.name w commitId >>= f).run.Every P fun _ => True :=
  Prog.every_bind_trivial ((every_writeAll O hP.reads hP.chunk ..).imp fun _ _ => trivial) fun _ =>
    Prog.every_bind_trivial ((every_sealValue O hP.reads hP.chunk ..).imp fun _ _ => trivial) hf

theorem every_streamCreate (fuel : ℕ) (bufs : List Bytes) (commitId : Bytes) :
    (streamCreate O K fuel key.name bufs commitId).run.Every P fun _ => True := by
  refine Prog.every_bind_trivial ?_ fun w => every_streamed O hP _ _ _ fun m => ?_
  · refine Prog.every_bind_trivial every_check fun _ => Prog.every_bind_trivial every_check fun _ => ?_
    refine Prog.every_bind_trivial (every_currentIncarnation hP.reads _) fun n => ?_
    exact Prog.every_bind_trivial (every_ensureUnfenced hP.reads _) fun _ => trivial
  · refine Prog.every_bind_trivial (every_publishCreate O hP _ _) fun _ => ?_
    refine Prog.every_bind_trivial (every_evictStaleEra O hP _ _) ?_
    rintro (_ | _ | e) <;> trivial

theorem every_streamCompareExchange (fuel : ℕ) (expected : Etag) (bufs : List Bytes) (commitId : Bytes) :
    (streamCompareExchange O K fuel key.name expected bufs commitId).run.Every P fun _ => True := by
  refine Prog.every_bind_trivial ?_ fun w => every_streamed O hP _ _ _ fun m => ?_
  · refine Prog.every_bind_trivial every_check fun _ => ?_
    simp only [key.path, check, pure_bind]
    refine Prog.every_bind_trivial (every_bindSuccessor O hP ..) fun era => ?_
    exact Prog.every_bind_trivial (every_ensureUnfenced hP.reads _) fun _ => trivial
  · rw [commitCompareExchange, map_eq_pure_bind]
    exact Prog.every_bind_trivial (every_publishSuccessor O hP ..) fun _ => trivial

end

section
variable {P : Req → Prop} {key} (O : Outside)

theorem every_destroy (hP : key.AllowsDestroy P) (cause actor : Str) (ts : UInt64) :
    (destroy O K key.name cause actor ts).run.Every P fun _ => True := by
  have hbump : ∀ e, (bumpIncarnation K key.name >>= fun _ =>
      (pure (some (K.root ++ key.name, e)) : KeyOp (Option (Str × Etag)))).run.Every P fun r =>
        ∀ x, r = .ok (some x) → x.1 = key.slots.control := fun e => by
    refine Prog.every_bindE.2 ((every_bumpCounter (hP.reads.counter _) hP.counter 8).imp ?_)
    rintro (err | n) - x ⟨⟩
    rfl
  have hprep : (prepareDestroy O K key.name cause actor ts).run.Every P fun r =>
      ∀ x, r = .ok (some x) → x.1 = key.slots.control := by
    simp only [prepareDestroy, readControlEraWithEtag, key.path, check, pure_bind, bind_assoc]
    refine Op.every_ask_bind.2 ⟨hP.reads.control, ?_⟩
    rintro (err | ⟨data, _ | e⟩)
    · cases err <;> exact nofun
    · exact nofun
    dsimp only
    cases ControlEnvelope.decode O key.name data with
    | error err => exact nofun
    | ok control =>
      simp only [pure_bind]
      refine Op.every_ask_bind.2 ⟨hP.tombstone _, ?_⟩
      rintro ((_ | _ | _) | y)
      · exact nofun
      · exact hbump e
      · exact nofun
      · exact hbump e
  refine Prog.every_bindE.2 (hprep.imp ?_)
  rintro (err | _ | ⟨path, e⟩) hx
  · trivial
  · trivial
  · obtain rfl : path = key.slots.control := hx _ rfl
    refine Op.every_ask_bind.2 ⟨hP.remove _, ?_⟩
    rintro ((_ | _ | _) | u)
    any_goals trivial
    exact Prog.every_bind_trivial (every_casConflict O hP.reads ..) fun _ => trivial

variable (hP : AllowsReads K P)
include hP

theorem every_getWithEtag (name : Str) : (getWithEtag O K name).run.Every P fun _ => True := by
  refine Prog.every_bindE.2 ((every_checkPath name).imp ?_)
  rintro (err | path) hpath
  · trivial
  obtain ⟨rfl, hv⟩ := hpath _ rfl
  refine Op.every_ask_bind.2 ⟨hP.valid hv, ?_⟩
  rintro ((_ | _ | _) | ⟨data, _ | e⟩)
  any_goals trivial
  exact Prog.every_bind_trivial (every_collectValue O hP ..) fun _ => trivial

theorem every_get (name : Str) : (get O K name).run.Every P fun _ => True := by
  refine Prog.every_bindE.2 ((every_checkPath name).imp ?_)
  rintro (err | path) hpath
  · trivial
  obtain ⟨rfl, hv⟩ := hpath _ rfl
  refine Op.every_ask_bind.2 ⟨hP.valid hv, ?_⟩
  rintro ((_ | _ | _) | ⟨data, e⟩)
  any_goals trivial
  dsimp only
  rw [map_eq_pure_bind]
  exact Prog.every_bind_trivial (every_collectValue O hP ..) fun _ => trivial

theorem every_openStream (name : Str) : (openStream O K name).run.Every P fun _ => True := by
  refine Prog.every_bindE.2 ((every_checkPath name).imp ?_)
  rintro (err | path) hpath
  · trivial
  obtain ⟨rfl, hv⟩ := hpath _ rfl
  refine Op.every_ask_bind.2 ⟨hP.valid hv, ?_⟩
  rintro ((_ | _ | _) | ⟨data, _ | e⟩)
  any_goals trivial
  exact Prog.every_bind_trivial every_check fun _ => trivial

theorem every_readState (fuel : ℕ) (name : Str) : (readState O K fuel name).run.Every P fun _ => True := by
  refine Prog.every_bind_trivial every_check fun _ => Prog.every_bind_trivial (every_seqRetired hP ..) ?_
  rintro (_ | floor)
  · refine Prog.every_bind_trivial (every_getWithEtag O hP _) ?_
    rintro (_ | x)
    · refine Prog.every_bind_trivial (every_readTombstone O hP ..) ?_
      rintro (_ | x) <;> trivial
    · trivial
  · trivial

theorem every_readStateStream (fuel : ℕ) (name : Str) : (readStateStream O K fuel name).run.Every P fun _ => True := by
  refine Prog.every_bind_trivial every_check fun _ => Prog.every_bind_trivial (every_seqRetired hP ..) ?_
  rintro (_ | floor)
  · refine Prog.every_bind_trivial (every_openStream O hP _) ?_
    rintro (_ | x)
    · refine Prog.every_bind_trivial (every_readTombstone O hP ..) ?_
      rintro (_ | x) <;> trivial
    · trivial
  · trivial

end

end YeetzS3.Keyspace.Key
