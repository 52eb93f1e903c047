import YeetzS3.Region
import YeetzS3.Lineage.Machine

/-!
# The calls of a lineage

The requests each public operation of a `StateKernel` may make, given that reported etags tag what they stand beside
(`LineageCall.asks`): reads, and the writes `LineageCall.Writes` lists, with the heads `LineageCall.Heads` a call may
publish.
-/

namespace YeetzS3.Lineage

open Conc

variable (X : Crates) (l : KernelLineage) (B : Backend)

namespace LineageCall

/-- The records a call publishes. -/
def records : LineageCall → List CanonicalRecord
  | appendGenesis record | appendSuccessor record _ | publishRecord record => [record]
  | appendGenesisBatch records | appendSuccessorBatch records _ => records
  | destroy _ _ _ | readHead | readHeadState | publishCheckpoint _ => []

/-- The heads a call may publish. -/
def Heads : LineageCall → CanonicalHead → Prop
  | appendGenesis record, h => ∃ incarnation, h = ⟨l, 0, incarnation, record.digest X, none⟩
  | appendGenesisBatch records, h => ∃ terminal incarnation, validateRecordBatch X l records 0 none = .ok terminal ∧
      h = ⟨l, terminal.generation, incarnation, terminal.digest, records.getLast?.bind (·.prior)⟩
  | appendSuccessor record expected, h => l.policy ≠ .genesisOnly ∧
      ∃ next, checkedSucc expected.head.generation = some next ∧
        h = ⟨l, next, expected.head.incarnation, record.digest X, some expected.head.position⟩
  | appendSuccessorBatch records expected, h => l.policy ≠ .genesisOnly ∧
      ∃ next terminal, checkedSucc expected.head.generation = some next ∧
        validateRecordBatch X l records next (some expected.head.position) = .ok terminal ∧
        h = ⟨l, terminal.generation, expected.head.incarnation, terminal.digest, records.getLast?.bind (·.prior)⟩
  | destroy _ _ _, _ | readHead, _ | readHeadState, _ | publishRecord _, _ | publishCheckpoint _, _ => False

/-- The writes of a call. -/
inductive Writes : LineageCall → Req → Prop where
  | record {c : LineageCall} {record : CanonicalRecord} (hr : record ∈ c.records) :
      Writes c (.put (l.objectKey (record.digest X)) (record.canonicalBytes X) none)
  | checkpoint (checkpoint : CanonicalCheckpoint) : Writes (.publishCheckpoint checkpoint)
      (.put (l.checkpointKey (checkpoint.digest X)) (checkpoint.canonicalBytes X) none)
  | head {c : LineageCall} {h : CanonicalHead} (hh : c.Heads X l h) (cond : Option Etag) :
      Writes c (.put l.headKey (h.canonicalBytes X) cond)
  | evict {c : LineageCall} {h : CanonicalHead} {e : Etag} (hh : c.Heads X l h) (he : B.tags (h.canonicalBytes X) e) :
      Writes c (.deleteIf l.headKey e)
  | tombstone {cause actor : Str} {ts : UInt64} (d : Bytes) :
      Writes (.destroy cause actor ts) (.put l.tombstoneKey d none)
  | counter {cause actor : Str} {ts : UInt64} (d : Bytes) (cond : Option Etag) :
      Writes (.destroy cause actor ts) (.put l.incarnationKey d cond)
  | remove {cause actor : Str} {ts : UInt64} {d : Bytes} {h : CanonicalHead} {e : Etag}
      (hd : CanonicalHead.fromBytes X l d = .ok h) (he : B.tags d e) :
      Writes (.destroy cause actor ts) (.deleteIf l.headKey e)

/-- What a call may ask. -/
def Asks (c : LineageCall) (r : Req) : Prop := (∃ p, r = .get p) ∨ c.Writes X l B r

end LineageCall

variable {X l B} {P : Req → Prop} {α : Type}

/-! ### The parts of an append -/

theorem under_check {A : (r : Req) → Resp r → Prop} {x : Except KernelError α} {Q : Except KernelError α → Prop}
    (ho : ∀ a, x = .ok a → Q (.ok a)) (he : ∀ e, Q (.error e)) : (check x).run.Under A P Q := by
  cases x with
  | ok a => exact ho a rfl
  | error e => exact he e

/-- After a check, what it found. -/
theorem under_check_bind {A : (r : Req) → Resp r → Prop} {β : Type} {x : Except KernelError α} {f : α → KernelOp β}
    (h : ∀ a, x = .ok a → (f a).run.Under A P fun _ => True) : (check x >>= f).run.Under A P fun _ => True :=
  Prog.under_bindE.2 (under_check h fun _ => trivial)

section
variable (hg : ∀ p, P (.get p))
include hg

theorem under_throwConflict {A : (r : Req) → Resp r → Prop} :
    (throwConflict X l : KernelOp α).run.Under A P fun _ => True := by
  have h : (throwConflict X l : KernelOp α).run.Every P fun _ => True := every_throwConflict X hg fun _ => trivial
  exact h.under

/-- The etag a head was read with tags the bytes it was read from. -/
theorem under_loadHead : (loadHead X l).run.Under B.Answers P fun r => ∀ loaded, r = .ok loaded →
    ∃ d, CanonicalHead.fromBytes X l d = .ok loaded.1 ∧ ∀ e, loaded.2 = some e → B.tags d e := by
  refine Op.under_ask_bind.2 ⟨hg _, ?_⟩
  rintro ((_ | _ | _) | ⟨data, etag⟩) hx
  · rintro loaded ⟨⟩
  · rintro loaded ⟨⟩
  · rintro loaded ⟨⟩
  dsimp only
  split
  · next head hd =>
    rintro loaded ⟨⟩
    exact ⟨data, hd, fun e he => hx data e (by rw [← he])⟩
  · rintro loaded ⟨⟩

theorem under_createHead {generation : UInt64} {recordDigest : RecordDigest} {prior : Option RecordPosition} {tries : ℕ}
    (hh : ∀ i cond, P (.put l.headKey ((CanonicalHead.mk l generation i recordDigest prior).canonicalBytes X) cond))
    (he : ∀ i e, B.tags ((CanonicalHead.mk l generation i recordDigest prior).canonicalBytes X) e →
      P (.deleteIf l.headKey e)) :
    (createHead X l generation recordDigest prior tries).run.Under B.Answers P fun _ => True := by
  induction tries with
  | zero => trivial
  | succ tries ih =>
    refine Prog.under_bind_trivial (every_currentIncarnation hg).under fun n => ?_
    refine Op.under_ask_bind.2 ⟨hh _ _, ?_⟩
    rintro ((_ | _ | _) | _ | etag) hx
    · trivial
    · exact under_throwConflict hg
    · trivial
    · trivial
    refine Prog.under_bind_trivial (every_currentIncarnation hg).under fun m => ?_
    split
    · trivial
    refine Op.under_ask_bind.2 ⟨he n etag (hx etag rfl), ?_⟩
    rintro ((_ | _ | _) | u) -
    · exact ih
    · exact under_throwConflict hg
    · trivial
    · exact ih

theorem under_advanceHead {head : CanonicalHead} {expectedEtag : Etag}
    (hh : ∀ cond, P (.put l.headKey (head.canonicalBytes X) cond))
    (he : ∀ e, B.tags (head.canonicalBytes X) e → P (.deleteIf l.headKey e)) :
    (advanceHead X l head expectedEtag).run.Under B.Answers P fun _ => True := by
  have hreplace : (replaceHead X l head expectedEtag).run.Under B.Answers P fun r =>
      ∀ a, r = .ok a → B.tags (head.canonicalBytes X) a.etag := by
    refine Op.under_ask_bind.2 ⟨hh _, ?_⟩
    rintro ((_ | _ | _) | _ | etag) hx
    · exact nofun
    · have h : (throwConflict X l : KernelOp HeadRead).run.Every P fun r => ∀ a, r = .ok a →
          B.tags (head.canonicalBytes X) a.etag := every_throwConflict X hg fun _ => nofun
      exact h.under
    · exact nofun
    · exact nofun
    · rintro a ⟨⟩
      exact hx etag rfl
  refine Prog.under_bindE.2 (hreplace.imp ?_)
  rintro (e | advanced) hadv
  · trivial
  refine Prog.under_bind_trivial (Prog.under_bind_trivial (every_currentIncarnation hg).under fun n => ?_) fun _ => trivial
  split
  · trivial
  refine Op.under_ask_bind.2 ⟨he _ (hadv _ rfl), ?_⟩
  rintro ((_ | _ | _) | u) -
  any_goals exact under_throwConflict hg
  trivial

end

/-! ### Every call asks only that -/

namespace LineageCall

variable {c : LineageCall}

theorem asks_get (p : Str) : c.Asks X l B (.get p) := .inl ⟨p, rfl⟩

theorem asks_head {h : CanonicalHead} (hh : c.Heads X l h) (cond : Option Etag) :
    c.Asks X l B (.put l.headKey (h.canonicalBytes X) cond) := .inr (.head hh cond)

theorem asks_evict {h : CanonicalHead} (hh : c.Heads X l h) (e : Etag) (he : B.tags (h.canonicalBytes X) e) :
    c.Asks X l B (.deleteIf l.headKey e) := .inr (.evict hh he)

/-- The records of a call, one of them or all. -/
theorem under_records {rs : List CanonicalRecord} (h : ∀ r ∈ rs, r ∈ c.records) :
    (publishRecords X l rs).run.Under B.Answers (c.Asks X l B) fun _ => True :=
  (every_publishRecords X asks_get fun r hr => .inr (.record (h r hr))).under

theorem under_record {record : CanonicalRecord} (h : record ∈ c.records) :
    (Lineage.publishRecord X l record).run.Under B.Answers (c.Asks X l B) fun r => ∀ d, r = .ok d → d = record.digest X :=
  (every_publishRecord X asks_get (.inr (.record h))).under

theorem asks_appendGenesis (record : CanonicalRecord) :
    (Lineage.appendGenesis X l record).run.Under B.Answers ((appendGenesis record).Asks X l B) fun _ => True := by
  refine under_check_bind fun _ _ => ?_
  split
  · trivial
  refine Prog.under_bindE.2 ((under_record (c := .appendGenesis record) List.mem_cons_self).imp ?_)
  rintro (e | d) hd
  · trivial
  rw [hd d rfl]
  exact under_createHead asks_get (fun i cond => asks_head (c := .appendGenesis record) ⟨i, rfl⟩ cond) fun i e he => asks_evict (c := .appendGenesis record) ⟨i, rfl⟩ e he

theorem asks_appendGenesisBatch (records : List CanonicalRecord) :
    (Lineage.appendGenesisBatch X l records).run.Under B.Answers ((appendGenesisBatch records).Asks X l B)
      fun _ => True := by
  refine under_check_bind fun terminal ht => ?_
  refine Prog.under_bind_trivial (under_records fun _ => id) fun _ => ?_
  exact under_createHead asks_get (fun i cond => asks_head (c := .appendGenesisBatch records) ⟨terminal, i, ht, rfl⟩ cond) fun i e he =>
    asks_evict (c := .appendGenesisBatch records) ⟨terminal, i, ht, rfl⟩ e he

theorem asks_appendSuccessor (record : CanonicalRecord) (expected : HeadRead) :
    (Lineage.appendSuccessor X l record expected).run.Under B.Answers ((appendSuccessor record expected).Asks X l B)
      fun _ => True := by
  unfold Lineage.appendSuccessor
  split
  · trivial
  next hp =>
  refine under_check_bind fun _ _ => ?_
  refine Prog.under_bind_trivial (every_ensureOpenEra X asks_get _).under fun _ => ?_
  split
  · exact under_throwConflict asks_get
  refine Prog.under_bind_trivial (every_loadExpected X asks_get _).under fun _ => ?_
  split
  · trivial
  next next hn =>
  split
  · trivial
  refine Prog.under_bindE.2 ((under_record (c := .appendSuccessor record expected) List.mem_cons_self).imp ?_)
  rintro (e | d) hd
  · trivial
  rw [hd d rfl]
  exact under_advanceHead asks_get (fun cond => asks_head (c := .appendSuccessor record expected) ⟨hp, next, hn, rfl⟩ cond) fun e he =>
    asks_evict (c := .appendSuccessor record expected) ⟨hp, next, hn, rfl⟩ e he

theorem asks_appendSuccessorBatch (records : List CanonicalRecord) (expected : HeadRead) :
    (Lineage.appendSuccessorBatch X l records expected).run.Under B.Answers
      ((appendSuccessorBatch records expected).Asks X l B) fun _ => True := by
  unfold Lineage.appendSuccessorBatch
  split
  · trivial
  next hp =>
  split
  · exact under_throwConflict asks_get
  refine Prog.under_bind_trivial (every_ensureOpenEra X asks_get _).under fun _ => ?_
  refine Prog.under_bind_trivial (every_loadExpected X asks_get _).under fun _ => ?_
  split
  · trivial
  next next hn =>
  refine under_check_bind fun terminal ht => ?_
  refine Prog.under_bind_trivial (under_records fun _ => id) fun _ => ?_
  exact under_advanceHead asks_get (fun cond => asks_head (c := .appendSuccessorBatch records expected) ⟨hp, next, terminal, hn, ht, rfl⟩ cond) fun e he =>
    asks_evict (c := .appendSuccessorBatch records expected) ⟨hp, next, terminal, hn, ht, rfl⟩ e he

theorem asks_destroy (cause actor : Str) (ts : UInt64) :
    (Lineage.destroy X l cause actor ts).run.Under B.Answers ((destroy cause actor ts).Asks X l B) fun _ => True := by
  refine Op.under_attempt_bind.2 ((under_loadHead asks_get).imp ?_)
  rintro (err | ⟨head, etag⟩) hl
  · cases err <;> trivial
  obtain ⟨d, hd, htag⟩ := hl _ rfl
  cases etag with
  | none => trivial
  | some etag =>
    refine Op.under_ask_bind.2 ⟨.inr (.tombstone _), ?_⟩
    have hrest : ∀ f : Except StoreError Unit → KernelOp Unit,
        (∀ x, (f x).run.Under B.Answers ((destroy cause actor ts).Asks X l B) fun _ => True) →
        (bumpCounter counterErrors l.incarnationKey 8 >>= fun _ => deleteConditional l.headKey etag >>= f :
          KernelOp Unit).run.Under B.Answers ((destroy cause actor ts).Asks X l B) fun _ => True := fun f hf =>
      Prog.under_bind_trivial (every_bumpCounter (asks_get _) (fun d c => .inr (.counter d c)) 8).under fun _ =>
        Op.under_ask_bind.2 ⟨.inr (.remove hd (htag etag rfl)), fun x _ => hf x⟩
    rintro ((_ | _ | _) | y) -
    · trivial
    · refine hrest _ ?_
      rintro ((_ | _ | _) | u)
      any_goals trivial
      exact under_throwConflict asks_get
    · trivial
    · refine hrest _ ?_
      rintro ((_ | _ | _) | u)
      any_goals trivial
      exact under_throwConflict asks_get

/-- Every call asks only what it may. -/
theorem asks (c : LineageCall) : (c.prog X l).Under B.Answers (c.Asks X l B) fun _ => True := by
  cases c with
  | appendGenesis record => exact asks_appendGenesis record
  | appendGenesisBatch records => exact asks_appendGenesisBatch records
  | appendSuccessor record expected => exact asks_appendSuccessor record expected
  | appendSuccessorBatch records expected => exact asks_appendSuccessorBatch records expected
  | destroy cause actor ts => exact asks_destroy cause actor ts
  | readHead => exact (every_readHead X asks_get).under
  | readHeadState => exact (every_readHeadState X asks_get).under
  | publishRecord record => exact (under_record (c := .publishRecord record) List.mem_cons_self).imp fun _ _ => trivial
  | publishCheckpoint checkpoint => exact (every_publishCheckpoint X asks_get (.inr (.checkpoint checkpoint))).under

end LineageCall

end YeetzS3.Lineage
