import YeetzS3.Lineage.OneLineage

/-!
# What the operations of a lineage may ask

For every program of `StateKernel`, the requests it may make whatever it is answered: reads; puts of records
and checkpoints if absent; and the requests on head, counter and tombstone of its own lineage.
-/

namespace YeetzS3.Lineage

open Conc

variable (X : Crates) (l : KernelLineage) (P : Req → Prop)

/-- `P` allows what an append asks. -/
structure AllowsAppend : Prop where
  get : ∀ p, P (.get p)
  record : ∀ d data, P (.put (l.objectKey d) data none)
  head : ∀ d c, P (.put l.headKey d c)
  evict : ∀ e, P (.deleteIf l.headKey e)

/-- `P` allows what a destroy asks. -/
structure AllowsDestroy : Prop where
  get : ∀ p, P (.get p)
  tombstone : ∀ d, P (.put l.tombstoneKey d none)
  counter : ∀ d c, P (.put l.incarnationKey d c)
  remove : ∀ e, P (.deleteIf l.headKey e)

variable {P l}

/-! ### Reads -/

theorem every_check {α : Type} {x : Except KernelError α} : (check x).run.Every P fun _ => True := by
  cases x <;> trivial

theorem every_needEtag (operation : String) (e : Option Etag) : (needEtag operation e).run.Every P fun _ => True := by
  cases e <;> trivial

section
variable (hg : ∀ p, P (.get p))
include hg

theorem every_loadHead : (loadHead X l).run.Every P fun _ => True := by
  refine Op.every_ask_bind.2 ⟨hg _, ?_⟩
  rintro ((_ | _ | _) | ⟨data, e⟩)
  any_goals trivial
  dsimp only
  split <;> trivial

theorem every_readHead : (readHead X l).run.Every P fun _ => True :=
  Prog.every_bind_trivial (every_loadHead X hg) fun _ => Prog.every_bind_trivial (every_needEtag _ _) fun _ => trivial

/-- A conflict succeeds never. -/
theorem every_throwConflict {α : Type} {Q : Except KernelError α → Prop} (hQ : ∀ e, Q (.error e)) :
    (throwConflict X l : KernelOp α).run.Every P Q := by
  refine Prog.every_bindE.2 (Prog.Every.imp (Q := fun _ => True) (Op.every_attempt_bind (every_loadHead X hg) ?_) ?_)
  · rintro (_ | _) <;> trivial
  · rintro (e | e) - <;> exact hQ _

theorem every_loadTombstone : (loadTombstone X l).run.Every P fun _ => True := by
  refine Op.every_ask_bind.2 ⟨hg _, ?_⟩
  rintro ((_ | _ | _) | ⟨data, e⟩)
  any_goals trivial
  dsimp only
  split <;> trivial

theorem every_readHeadState : (readHeadState X l).run.Every P fun _ => True := by
  refine Op.every_attempt_bind (every_loadHead X hg) ?_
  rintro (err | loaded)
  · cases err
    case stateHistoryIncomplete =>
      refine Prog.every_bind_trivial (every_loadTombstone X hg) ?_
      rintro (_ | tombstone) <;> trivial
    all_goals trivial
  · exact Prog.every_bind_trivial (every_needEtag _ _) fun _ => trivial

theorem every_currentIncarnation : (currentIncarnation l).run.Every P fun _ => True := every_readCounter (hg _)

theorem every_ensureOpenEra (head : CanonicalHead) : (ensureOpenEra X l head).run.Every P fun _ => True := by
  refine Prog.every_bind_trivial (every_currentIncarnation hg) fun n => ?_
  split
  · trivial
  · exact every_throwConflict X hg fun _ => trivial

theorem every_loadExpected (expected : HeadRead) : (loadExpected X l expected).run.Every P fun _ => True := by
  refine Prog.every_bind_trivial (every_loadHead X hg) fun current => ?_
  refine Prog.every_bind_trivial (every_needEtag _ _) fun etag => ?_
  split <;> trivial

/-! ### Publishing records -/

theorem every_publishImmutable {key : Str} {bytes : Bytes} (hp : P (.put key bytes none)) (reference : SafeReference) : (publishImmutable X key bytes reference).run.Every P fun _ => True := by
  have hback : ∀ f : Except StoreError (Bytes × Option Etag) → KernelOp Unit, (∀ x, (f x).run.Every P fun _ => True) →
      (download key >>= f).run.Every P fun _ => True := fun f hf => Op.every_ask_bind.2 ⟨hg _, hf⟩
  refine Op.every_ask_bind.2 ⟨hp, ?_⟩
  rintro ((_ | _ | _) | y)
  · trivial
  · refine hback _ ?_
    rintro (e | ⟨existing, e⟩)
    · trivial
    · dsimp only
      split <;> trivial
  · trivial
  · refine hback _ ?_
    rintro (e | ⟨existing, e⟩)
    · trivial
    · dsimp only
      split <;> trivial

/-- A record is published under its digest. -/
theorem every_publishRecord {record : CanonicalRecord}
    (hp : P (.put (l.objectKey (record.digest X)) (record.canonicalBytes X) none)) :
    (publishRecord X l record).run.Every P fun r => ∀ d, r = .ok d → d = record.digest X := by
  refine Prog.every_bindE.2 (every_check.imp ?_)
  rintro (e | u) -
  · exact nofun
  refine Prog.every_bindE.2 ((every_publishImmutable X hg hp _).imp ?_)
  rintro (e | u) -
  · exact nofun
  · rintro d ⟨⟩
    rfl

theorem every_publishRecords {records : List CanonicalRecord}
    (hp : ∀ record ∈ records, P (.put (l.objectKey (record.digest X)) (record.canonicalBytes X) none)) :
    (publishRecords X l records).run.Every P fun _ => True := by
  induction records with
  | nil => trivial
  | cons record records ih =>
    exact Prog.every_bind_trivial ((every_publishRecord X hg (hp _ List.mem_cons_self)).imp fun _ _ => trivial) fun _ =>
      ih fun r hr => hp r (List.mem_cons_of_mem _ hr)

theorem every_publishCheckpoint {checkpoint : CanonicalCheckpoint}
    (hp : P (.put (l.checkpointKey (checkpoint.digest X)) (checkpoint.canonicalBytes X) none)) :
    (publishCheckpoint X l checkpoint).run.Every P fun _ => True := by
  unfold publishCheckpoint
  split
  · exact Prog.every_bind_trivial (every_publishImmutable X hg hp _) fun _ => trivial
  · trivial

end

/-! ### Appends -/

section
variable (hP : AllowsAppend l P)
include hP

theorem every_createHead (generation : UInt64) (recordDigest : RecordDigest) (prior : Option RecordPosition) (tries : ℕ) :
    (createHead X l generation recordDigest prior tries).run.Every P fun _ => True := by
  induction tries with
  | zero => trivial
  | succ tries ih =>
    refine Prog.every_bind_trivial (every_currentIncarnation hP.get) fun n => ?_
    refine Op.every_ask_bind.2 ⟨hP.head _ _, ?_⟩
    rintro ((_ | _ | _) | _ | etag)
    · trivial
    · exact every_throwConflict X hP.get fun _ => trivial
    · trivial
    · trivial
    refine Prog.every_bind_trivial (every_currentIncarnation hP.get) fun m => ?_
    split
    · trivial
    refine Op.every_ask_bind.2 ⟨hP.evict _, ?_⟩
    rintro ((_ | _ | _) | u)
    · exact ih
    · exact every_throwConflict X hP.get fun _ => trivial
    · trivial
    · exact ih

theorem every_appendGenesis (record : CanonicalRecord) : (appendGenesis X l record).run.Every P fun _ => True := by
  refine Prog.every_bind_trivial every_check fun _ => ?_
  split
  · trivial
  exact Prog.every_bind_trivial ((every_publishRecord X hP.get (hP.record _ _)).imp fun _ _ => trivial) fun _ => every_createHead X hP ..

theorem every_appendGenesisBatch (records : List CanonicalRecord) :
    (appendGenesisBatch X l records).run.Every P fun _ => True :=
  Prog.every_bind_trivial every_check fun _ =>
    Prog.every_bind_trivial (every_publishRecords X hP.get fun _ _ => hP.record _ _) fun _ => every_createHead X hP ..

/-- The head an advance returns is the one it was given. -/
theorem every_advanceHead (head : CanonicalHead) (expectedEtag : Etag) :
    (advanceHead X l head expectedEtag).run.Every P fun r => ∀ a, r = .ok a → a.head = head := by
  have hreplace : (replaceHead X l head expectedEtag).run.Every P fun r => ∀ a, r = .ok a → a.head = head := by
    refine Op.every_ask_bind.2 ⟨hP.head _ _, ?_⟩
    rintro ((_ | _ | _) | _ | etag)
    · exact nofun
    · exact every_throwConflict X hP.get fun _ => nofun
    · exact nofun
    · exact nofun
    · rintro a ⟨⟩
      rfl
  refine Prog.every_bindE.2 (hreplace.imp ?_)
  rintro (e | advanced) hadv
  · exact nofun
  refine Prog.every_bindE.2 (Prog.Every.imp (Q := fun _ => True) (Prog.every_bind_trivial
    (every_currentIncarnation hP.get) fun n => ?_) ?_)
  · split
    · trivial
    refine Op.every_ask_bind.2 ⟨hP.evict _, ?_⟩
    rintro ((_ | _ | _) | u)
    any_goals exact every_throwConflict X hP.get fun _ => trivial
    trivial
  · rintro (e | u) -
    · exact nofun
    · rintro a ⟨⟩
      exact hadv _ rfl

/-- A successor is of the incarnation of the head it was appended to. -/
theorem every_appendSuccessor (record : CanonicalRecord) (expected : HeadRead) :
    (appendSuccessor X l record expected).run.Every P fun r =>
      ∀ a, r = .ok a → a.head.incarnation = expected.head.incarnation := by
  unfold appendSuccessor
  split
  · exact nofun
  refine Prog.every_bindE.2 (every_check.imp ?_)
  rintro (e | u) -
  · exact nofun
  refine Prog.every_bindE.2 ((every_ensureOpenEra X hP.get _).imp ?_)
  rintro (e | u) -
  · exact nofun
  dsimp only [Prog.OnOk]
  split
  · exact every_throwConflict X hP.get fun _ => nofun
  refine Prog.every_bindE.2 ((every_loadExpected X hP.get _).imp ?_)
  rintro (e | u) -
  · exact nofun
  dsimp only [Prog.OnOk]
  split
  · exact nofun
  split
  · exact nofun
  refine Prog.every_bindE.2 ((every_publishRecord X hP.get (hP.record _ _)).imp ?_)
  rintro (e | d) -
  · exact nofun
  · refine (every_advanceHead X hP ..).imp fun r hr a ha => ?_
    rw [hr a ha]

theorem every_appendSuccessorBatch (records : List CanonicalRecord) (expected : HeadRead) :
    (appendSuccessorBatch X l records expected).run.Every P fun r =>
      ∀ a, r = .ok a → a.head.incarnation = expected.head.incarnation := by
  unfold appendSuccessorBatch
  split
  · exact nofun
  split
  · exact every_throwConflict X hP.get fun _ => nofun
  refine Prog.every_bindE.2 ((every_ensureOpenEra X hP.get _).imp ?_)
  rintro (e | u) -
  · exact nofun
  refine Prog.every_bindE.2 ((every_loadExpected X hP.get _).imp ?_)
  rintro (e | u) -
  · exact nofun
  dsimp only [Prog.OnOk]
  split
  · exact nofun
  refine Prog.every_bindE.2 (every_check.imp ?_)
  rintro (e | terminal) -
  · exact nofun
  refine Prog.every_bindE.2 ((every_publishRecords X hP.get fun _ _ => hP.record _ _).imp ?_)
  rintro (e | u) -
  · exact nofun
  · refine (every_advanceHead X hP ..).imp fun r hr a ha => ?_
    rw [hr a ha]

end

/-! ### Destruction -/

theorem every_destroy (hP : AllowsDestroy l P) (cause actor : Str) (ts : UInt64) :
    (destroy X l cause actor ts).run.Every P fun _ => True := by
  refine Op.every_attempt_bind (every_loadHead X hP.get) ?_
  rintro (err | loaded)
  · cases err <;> trivial
  refine Prog.every_bind_trivial (every_needEtag _ _) fun etag => Op.every_ask_bind.2 ⟨hP.tombstone _, ?_⟩
  have hrest : ∀ f : Except StoreError Unit → KernelOp Unit, (∀ x, (f x).run.Every P fun _ => True) →
      (bumpCounter counterErrors l.incarnationKey 8 >>= fun _ => deleteConditional l.headKey etag >>= f :
        KernelOp Unit).run.Every P fun _ => True := fun f hf =>
    Prog.every_bind_trivial (every_bumpCounter (hP.get _) hP.counter 8) fun _ => Op.every_ask_bind.2 ⟨hP.remove _, hf⟩
  have hconflict : (throwConflict X l : KernelOp Unit).run.Every P fun _ => True := every_throwConflict X hP.get fun _ => trivial
  rintro ((_ | _ | _) | y)
  · trivial
  · refine hrest _ ?_
    rintro ((_ | _ | _) | u)
    · trivial
    · exact hconflict
    · trivial
    · trivial
  · trivial
  · refine hrest _ ?_
    rintro ((_ | _ | _) | u)
    · trivial
    · exact hconflict
    · trivial
    · trivial

end YeetzS3.Lineage
