import YeetzS3.Region
import YeetzS3.Lineage.Laws
import YeetzS3.Lineage.Destroy

/-!
# A batch append and its single appends

`append_successor_batch` publishes its records and replaces the head once; `append_successor` does so record by record. On a store
that does not fail, and with nobody else about, both come to the same bucket, except that the batch refuses a record at the
last generation there is: its check asks for the generation after every record, the last one too.
-/

namespace YeetzS3.Lineage

open Conc

section
variable (X : Crates) (l : KernelLineage)

/-- The single appends of a slice of records, each against the head the one before it returned. -/
def appendEach : List CanonicalRecord → HeadRead → KernelOp HeadRead
  | [], expected => pure expected
  | record :: records, expected => do
    let advanced ← appendSuccessor X l record expected
    appendEach records advanced

/-- The genesis append of the first record, and the single appends of the others. -/
def appendGenesisEach (record : CanonicalRecord) (records : List CanonicalRecord) : KernelOp HeadRead := do
  let created ← appendGenesis X l record
  appendEach X l records created

/-! ### What a state allows -/

/-- The counter reads `n`. -/
def CounterIs (s : Store) (n : UInt64) : Prop :=
  match s.lookup (pathFrom l.incarnationKey) with
  | none => n = 0
  | some o => u64OfBytes o.data = some n

theorem CounterIs.unique {l : KernelLineage} {s : Store} {n m : UInt64} (h : CounterIs l s n) (h' : CounterIs l s m) :
    n = m := by
  unfold CounterIs at h h'
  cases ho : s.lookup (pathFrom l.incarnationKey) with
  | none =>
    rw [ho] at h h'
    exact h.trans h'.symm
  | some o =>
    rw [ho] at h h'
    exact Option.some_inj.1 (h.symm.trans h')

/-- The head is the expected one, under the expected etag. -/
def HeadIs (s : Store) (expected : HeadRead) : Prop :=
  ∃ o head, s.lookup (pathFrom l.headKey) = some o ∧ CanonicalHead.fromBytes X l o.data = .ok head ∧
    head.sameIdentity expected.head = true ∧ o.etag = expected.etag

/-- A successor of the expected head may be appended. -/
structure Current (s : Store) (expected : HeadRead) : Prop where
  policy : l.policy ≠ .genesisOnly
  lineage : l.sameIdentity expected.head.lineage = true
  counter : CounterIs l s expected.head.incarnation
  head : HeadIs X l s expected

/-- The object of a record. -/
def recordPath (r : CanonicalRecord) : Str := pathFrom (l.objectKey (r.digest X))

/-- No record's object holds something else, and no two different records have one object. -/
def Writable (s : Store) (records : List CanonicalRecord) : Prop :=
  ∀ r ∈ records, (∀ o, s.lookup (recordPath X l r) = some o → o.data = r.canonicalBytes X) ∧
    ∀ r' ∈ records, recordPath X l r' = recordPath X l r → r'.canonicalBytes X = r.canonicalBytes X

/-- The records can be appended one by one. -/
structure Appendable (s : Store) (expected : HeadRead) (records : List CanonicalRecord) : Prop where
  current : Current X l s expected
  linked : ∃ q, Follows X l expected.head.position records q
  writable : Writable X l s records

end

variable {X : Crates} {l : KernelLineage} {B : Backend} {s t u w : Store} {expected : HeadRead} {r : CanonicalRecord}
  {records : List CanonicalRecord} {p q : RecordPosition}

/-! ### The checks -/

theorem Follows.generation (h : Follows X l p records q) : q.generation.toNat = p.generation.toNat + records.length := by
  induction h with
  | nil => rfl
  | @cons p q r rs _ hn _ _ ih =>
    have hpos : (r.position X).generation = r.sequence := rfl
    rw [ih, hpos, hn, List.length_cons]
    omega

theorem Follows.lineages (h : Follows X l p records q) : ∀ r ∈ records, l.sameIdentity r.lineage = true := by
  induction h with
  | nil => exact fun _ hr => absurd hr List.not_mem_nil
  | cons hl _ _ _ ih => exact List.forall_mem_cons.2 ⟨hl, ih⟩

theorem ensureRecordLineage_ok : ensureRecordLineage l r = .ok () ↔ l.sameIdentity r.lineage = true := by
  unfold ensureRecordLineage
  split
  · next h => exact ⟨fun _ => h, fun _ => rfl⟩
  · next h => exact ⟨nofun, fun h' => absurd h' h⟩

/-- The batch's check accepts the records that follow one another, short of the last generation. -/
theorem validateRecordBatch_ok {n : UInt64} (hn : n.toNat = p.generation.toNat + 1) :
    validateRecordBatch X l records n (some p) = .ok q ↔
      Follows X l p records q ∧ (records ≠ [] → q.generation.toNat + 1 < 2 ^ 64) := by
  constructor
  · intro h
    have hf := follows_of_batch hn h
    refine ⟨hf, fun hne => ?_⟩
    clear hf
    induction records generalizing p n with
    | nil => exact absurd rfl hne
    | cons r records ih =>
      rw [validateRecordBatch] at h
      split at h
      · cases h
      split at h
      · cases h
      split at h
      · cases h
      next next hs =>
      have hsucc := toNat_of_checkedSucc hs
      by_cases hnil : records = []
      · subst hnil
        cases h
        rw [← hsucc]
        exact next.toNat_lt
      · exact ih hsucc h hnil
  · rintro ⟨hf, hlt⟩
    induction hf generalizing n with
    | nil => rfl
    | @cons p q r rs hl hseq hprior hrs ih =>
      have hbound := hlt (List.cons_ne_nil _ _)
      have hgen := hrs.generation
      have hpos : (r.position X).generation = r.sequence := rfl
      have hrn : r.sequence = n := UInt64.toNat_inj.1 (by rw [hseq, hn])
      rw [validateRecordBatch, ensureRecordLineage_ok.2 hl]
      dsimp only
      rw [if_neg (by simp [hrn, hprior])]
      obtain ⟨next, hnext⟩ : ∃ next, checkedSucc n = some next := by
        rw [hpos, hrn] at hgen
        exact ⟨n + 1, if_pos (by omega)⟩
      rw [hnext]
      have hrest := ih (n := next) (by rw [toNat_of_checkedSucc hnext, hpos, hrn]) fun _ => hbound
      rw [← hrn]
      exact hrest

/-! ### The programs, on a store that does not fail -/

section
variable (hB : ¬ B.faults)
include hB

theorem exec_get {path : Str} {x : Except StoreError (Bytes × Option Etag)} :
    B.exec s (.get path) x t ↔ t = s ∧ x = s.found (pathFrom path) := by
  constructor
  · rintro ⟨rfl, h | ⟨hf, -⟩⟩
    · exact ⟨rfl, h⟩
    · exact absurd hf hB
  · rintro ⟨rfl, rfl⟩
    exact ⟨rfl, .inl rfl⟩

theorem currentIncarnation_runs {n : UInt64} :
    (currentIncarnation l).run.Runs B.exec s (.ok n) t ↔ t = s ∧ CounterIs l s n := by
  unfold currentIncarnation readCounter CounterIs
  rw [Op.run_ask_bind, Prog.runs_call]
  simp only [exec_get hB]
  unfold Store.found
  constructor
  · rintro ⟨x, u, ⟨rfl, rfl⟩, hrun⟩
    split at hrun
    · next raw e hx =>
      split at hx
      · next o ho =>
        cases hx
        rw [ho]
        split at hrun
        · next m hm =>
          obtain ⟨hn, rfl⟩ := Prog.runs_ret.1 hrun
          cases hn
          exact ⟨rfl, hm⟩
        · cases (Prog.runs_ret.1 hrun).1
      · cases hx
    · next hx =>
      split at hx
      · cases hx
      · next ho =>
        obtain ⟨hn, rfl⟩ := Prog.runs_ret.1 hrun
        cases hn
        rw [ho]
        exact ⟨rfl, rfl⟩
    · cases (Prog.runs_ret.1 hrun).1
  · rintro ⟨rfl, hc⟩
    refine ⟨_, t, ⟨rfl, rfl⟩, ?_⟩
    split at hc
    · next ho =>
      rw [ho, hc]
      exact .ret
    · next o ho =>
      rw [ho]
      dsimp only
      rw [hc]
      exact .ret

omit hB in
theorem throwConflict_runs {α : Type} {a : α} : ¬ (throwConflict X l : KernelOp α).run.Runs B.exec s (.ok a) t := by
  intro h
  obtain ⟨_, _, -, hthrow⟩ := Prog.runs_bindE.1 h
  cases (Prog.runs_ret.1 hthrow).1

theorem ensureOpenEra_runs {head : CanonicalHead} :
    (ensureOpenEra X l head).run.Runs B.exec s (.ok ()) t ↔ t = s ∧ CounterIs l s head.incarnation := by
  unfold ensureOpenEra
  rw [Prog.runs_bindE]
  simp only [currentIncarnation_runs hB]
  constructor
  · rintro ⟨n, u, ⟨rfl, hn⟩, hrun⟩
    split at hrun
    · next heq =>
      obtain ⟨-, rfl⟩ := Prog.runs_ret.1 hrun
      exact ⟨rfl, heq ▸ hn⟩
    · exact absurd hrun throwConflict_runs
  · rintro ⟨rfl, hn⟩
    refine ⟨_, t, ⟨rfl, hn⟩, ?_⟩
    rw [if_pos rfl]
    exact .ret

theorem loadHead_runs {head : CanonicalHead} {e : Option Etag} : (loadHead X l).run.Runs B.exec s (.ok (head, e)) t ↔
    t = s ∧ ∃ o, s.lookup (pathFrom l.headKey) = some o ∧ CanonicalHead.fromBytes X l o.data = .ok head ∧ e = some o.etag := by
  unfold loadHead
  rw [Op.run_ask_bind, Prog.runs_call]
  simp only [exec_get hB]
  unfold Store.found
  constructor
  · rintro ⟨x, u, ⟨rfl, rfl⟩, hrun⟩
    split at hrun
    · next raw e' hx =>
      split at hx
      · next o ho =>
        cases hx
        split at hrun
        · next head' hh =>
          obtain ⟨hok, rfl⟩ := Prog.runs_ret.1 hrun
          cases hok
          exact ⟨rfl, o, ho, hh, rfl⟩
        · cases (Prog.runs_ret.1 hrun).1
      · cases hx
    · cases (Prog.runs_ret.1 hrun).1
    · cases (Prog.runs_ret.1 hrun).1
  · rintro ⟨rfl, o, ho, hh, rfl⟩
    refine ⟨_, t, ⟨rfl, rfl⟩, ?_⟩
    rw [ho]
    dsimp only
    rw [hh]
    exact .ret

theorem loadExpected_runs : (loadExpected X l expected).run.Runs B.exec s (.ok ()) t ↔ t = s ∧ HeadIs X l s expected := by
  unfold loadExpected
  rw [Prog.runs_bindE]
  constructor
  · rintro ⟨⟨head, e⟩, u, hload, hrun⟩
    obtain ⟨rfl, o, ho, hh, rfl⟩ := (loadHead_runs hB).1 hload
    obtain ⟨e, u', hneed, hrun⟩ := Prog.runs_bindE.1 hrun
    obtain ⟨hok, rfl⟩ := Prog.runs_ret.1 hneed
    cases hok
    split at hrun
    · cases (Prog.runs_ret.1 hrun).1
    · next hsame =>
      obtain ⟨-, rfl⟩ := Prog.runs_ret.1 hrun
      rw [not_or, not_not, Bool.not_eq_false] at hsame
      exact ⟨rfl, o, head, ho, hh, hsame⟩
  · rintro ⟨rfl, o, head, ho, hh, hsame, he⟩
    refine ⟨(head, some o.etag), t, (loadHead_runs hB).2 ⟨rfl, o, ho, hh, rfl⟩, Prog.runs_bindE.2 ⟨o.etag, t, .ret, ?_⟩⟩
    rw [if_neg (by simp [hsame, he])]
    exact .ret

end

/-- A record's object is put, or it is there already. -/
def Publishes (X : Crates) (l : KernelLineage) (B : Backend) (s : Store) (r : CanonicalRecord) (t : Store) : Prop :=
  (s.lookup (recordPath X l r) = none ∧ ∃ e, B.tags (r.canonicalBytes X) e ∧
    t = s.insert (recordPath X l r) ⟨r.canonicalBytes X, e⟩) ∨
  (∃ o, s.lookup (recordPath X l r) = some o ∧ o.data = r.canonicalBytes X) ∧ t = s

/-- The objects of records, one after another. -/
inductive PublishesAll (X : Crates) (l : KernelLineage) (B : Backend) : Store → List CanonicalRecord → Store → Prop where
  | nil (s : Store) : PublishesAll X l B s [] s
  | cons {s t u : Store} {r : CanonicalRecord} {records : List CanonicalRecord} (hl : l.sameIdentity r.lineage = true)
      (hr : Publishes X l B s r t) (hrs : PublishesAll X l B t records u) : PublishesAll X l B s (r :: records) u

section
variable (hB : ¬ B.faults)
include hB

theorem exec_put {path : Str} {d : Bytes} {c : Option Etag} {x : Except StoreError (Option Etag)} :
    B.exec s (.put path d c) x t ↔
      (s.accepts (pathFrom path) c = true ∧ ∃ e, B.tags d e ∧ t = s.insert (pathFrom path) ⟨d, e⟩ ∧ x = .ok (some e)) ∨
      s.accepts (pathFrom path) c = false ∧ t = s ∧ x = .error .preconditionFailed := by
  constructor
  · rintro (⟨ha, e, he, ht, hx | ⟨hf, -⟩⟩ | h | ⟨hf, -⟩)
    · exact .inl ⟨ha, e, he, ht, hx⟩
    · exact absurd hf hB
    · exact .inr h
    · exact absurd hf hB
  · rintro (⟨ha, e, he, ht, hx⟩ | h)
    · exact .inl ⟨ha, e, he, ht, .inl hx⟩
    · exact .inr (.inl h)

theorem publishImmutable_runs {key : Str} {bytes : Bytes} {reference : SafeReference} :
    (publishImmutable X key bytes reference).run.Runs B.exec s (.ok ()) t ↔
      (s.lookup (pathFrom key) = none ∧ ∃ e, B.tags bytes e ∧ t = s.insert (pathFrom key) ⟨bytes, e⟩) ∨
      (∃ o, s.lookup (pathFrom key) = some o ∧ o.data = bytes) ∧ t = s := by
  -- what the readback says of a bucket
  have hread : ∀ {u : Store} {f : Except StoreError (Bytes × Option Etag) → KernelOp Unit},
      (∀ existing e, f (.ok (existing, e)) = if existing = bytes ∧ RecordDigest.of X existing = RecordDigest.of X bytes then pure ()
        else throw (.digestMismatch reference)) →
      (∀ e, f (.error e) = unavailable "immutable readback after conditional create") →
      ((Op.ask (Req.get key) >>= f).run.Runs B.exec u (.ok ()) t ↔
        t = u ∧ ∃ o, u.lookup (pathFrom key) = some o ∧ o.data = bytes) := by
    intro u f hok herr
    rw [Op.run_ask_bind, Prog.runs_call]
    simp only [exec_get hB]
    unfold Store.found
    constructor
    · rintro ⟨x, u', ⟨rfl, rfl⟩, hrun⟩
      cases ho : u'.lookup (pathFrom key) with
      | none =>
        rw [ho] at hrun
        dsimp only at hrun
        rw [herr] at hrun
        cases (Prog.runs_ret.1 hrun).1
      | some o =>
        rw [ho] at hrun
        dsimp only at hrun
        rw [hok] at hrun
        split at hrun
        · next hsame => exact ⟨(Prog.runs_ret.1 hrun).2, o, rfl, hsame.1⟩
        · cases (Prog.runs_ret.1 hrun).1
    · rintro ⟨rfl, o, ho, rfl⟩
      refine ⟨_, t, ⟨rfl, rfl⟩, ?_⟩
      rw [ho]
      dsimp only
      rw [hok, if_pos ⟨rfl, rfl⟩]
      exact .ret
  unfold publishImmutable
  rw [Op.run_ask_bind, Prog.runs_call]
  simp only [exec_put hB]
  constructor
  · rintro ⟨x, u, ⟨ha, e, he, rfl, rfl⟩ | ⟨ha, rfl, rfl⟩, hrun⟩
    · obtain ⟨rfl, -⟩ := (hread (fun _ _ => rfl) fun _ => rfl).1 hrun
      exact .inl ⟨Store.accepts_none.1 ha, e, he, rfl⟩
    · obtain ⟨rfl, ho⟩ := (hread (fun _ _ => rfl) fun _ => rfl).1 hrun
      exact .inr ⟨ho, rfl⟩
  · rintro (⟨hnone, e, he, rfl⟩ | ⟨ho, rfl⟩)
    · exact ⟨_, _, .inl ⟨Store.accepts_none.2 hnone, e, he, rfl, rfl⟩,
        (hread (fun _ _ => rfl) fun _ => rfl).2 ⟨rfl, _, AList.lookup_insert _, rfl⟩⟩
    · refine ⟨_, _, .inr ⟨?_, rfl, rfl⟩, (hread (fun _ _ => rfl) fun _ => rfl).2 ⟨rfl, ho⟩⟩
      obtain ⟨o, ho, -⟩ := ho
      rw [Store.accepts, ho]
      rfl

omit hB in
theorem check_runs {α : Type} {x : Except KernelError α} {a : α} :
    (check x).run.Runs B.exec s (.ok a) t ↔ x = .ok a ∧ t = s := by
  cases x with
  | ok b =>
    refine Prog.runs_ret.trans ?_
    rw [@eq_comm _ (Except.ok a)]
  | error e => exact Prog.runs_ret.trans (by simp)

theorem publishRecord_runs {d : RecordDigest} : (publishRecord X l r).run.Runs B.exec s (.ok d) t ↔
    l.sameIdentity r.lineage = true ∧ d = r.digest X ∧ Publishes X l B s r t := by
  unfold publishRecord
  rw [Prog.runs_bindE]
  constructor
  · rintro ⟨⟨⟩, u, hcheck, hrun⟩
    obtain ⟨hl, rfl⟩ := check_runs.1 hcheck
    obtain ⟨⟨⟩, u', hput, hret⟩ := Prog.runs_bindE.1 hrun
    obtain ⟨hd, rfl⟩ := Prog.runs_ret.1 hret
    exact ⟨ensureRecordLineage_ok.1 hl, Except.ok.inj hd, (publishImmutable_runs hB).1 hput⟩
  · rintro ⟨hl, rfl, hput⟩
    exact ⟨(), s, check_runs.2 ⟨ensureRecordLineage_ok.2 hl, rfl⟩,
      Prog.runs_bindE.2 ⟨(), t, (publishImmutable_runs hB).2 hput, .ret⟩⟩

theorem publishRecords_runs : (publishRecords X l records).run.Runs B.exec s (.ok ()) t ↔ PublishesAll X l B s records t := by
  induction records generalizing s with
  | nil =>
    refine Prog.runs_ret.trans ⟨?_, ?_⟩
    · rintro ⟨-, rfl⟩
      exact .nil _
    · rintro ⟨⟩
      exact ⟨rfl, rfl⟩
  | cons r records ih =>
    refine Prog.runs_bindE.trans ⟨?_, ?_⟩
    · rintro ⟨d, u, hput, hrun⟩
      obtain ⟨hl, -, hr⟩ := (publishRecord_runs hB).1 hput
      exact .cons hl hr (ih.1 hrun)
    · intro h
      cases h with
      | cons hl hr hrs => exact ⟨_, _, (publishRecord_runs hB).2 ⟨hl, rfl, hr⟩, ih.2 hrs⟩

omit hB in
/-- The counter does not see other objects. -/
theorem counterIs_insert {n : UInt64} {path : Str} {o : Object} (hne : pathFrom l.incarnationKey ≠ path) :
    CounterIs l (s.insert path o) n ↔ CounterIs l s n := by
  unfold CounterIs
  rw [AList.lookup_insert_ne hne]

/-- The head is replaced, its lifetime being open. -/
theorem advanceHead_runs {head : CanonicalHead} {e : Etag} {a : HeadRead} :
    (advanceHead X l head e).run.Runs B.exec s (.ok a) t ↔ (∃ o, s.lookup (pathFrom l.headKey) = some o ∧ o.etag = e) ∧
      CounterIs l s head.incarnation ∧ a.head = head ∧ B.tags (head.canonicalBytes X) a.etag ∧
      t = s.insert (pathFrom l.headKey) ⟨head.canonicalBytes X, a.etag⟩ := by
  have hapart : pathFrom l.incarnationKey ≠ pathFrom l.headKey := l.slots.control_ne_counter.symm
  unfold advanceHead
  rw [Prog.runs_bindE]
  constructor
  · rintro ⟨advanced, u, hreplace, hrun⟩
    unfold replaceHead at hreplace
    rw [Op.run_ask_bind, Prog.runs_call] at hreplace
    obtain ⟨x, u₁, hput, hret⟩ := hreplace
    rcases (exec_put hB).1 hput with ⟨ha, e', he', rfl, rfl⟩ | ⟨-, -, rfl⟩
    · obtain ⟨hadv, rfl⟩ := Prog.runs_ret.1 hret
      cases hadv
      obtain ⟨⟨⟩, u₂, hretire, hret⟩ := Prog.runs_bindE.1 hrun
      obtain ⟨ha', rfl⟩ := Prog.runs_ret.1 hret
      cases ha'
      obtain ⟨n, u₃, hcount, hretire⟩ := Prog.runs_bindE.1 hretire
      obtain ⟨rfl, hn⟩ := (currentIncarnation_runs hB).1 hcount
      split at hretire
      · next heq =>
        obtain ⟨-, rfl⟩ := Prog.runs_ret.1 hretire
        rw [heq, counterIs_insert hapart] at hn
        exact ⟨Store.accepts_some.1 ha, hn, rfl, he', rfl⟩
      · rw [Op.run_ask_bind, Prog.runs_call] at hretire
        obtain ⟨y, v, -, hretire⟩ := hretire
        rcases y with (_ | _ | _) | ⟨⟩
        · exact absurd hretire throwConflict_runs
        · exact absurd hretire throwConflict_runs
        · cases (Prog.runs_ret.1 hretire).1
        · exact absurd hretire throwConflict_runs
    · exact absurd hret throwConflict_runs
  · rintro ⟨ho, hn, rfl, he, rfl⟩
    refine ⟨⟨a.head, a.etag⟩, s.insert (pathFrom l.headKey) ⟨a.head.canonicalBytes X, a.etag⟩, ?_,
      Prog.runs_bindE.2 ⟨(), _, ?_, .ret⟩⟩
    · unfold replaceHead
      rw [Op.run_ask_bind, Prog.runs_call]
      exact ⟨_, _, (exec_put hB).2 (.inl ⟨Store.accepts_some.2 ho, _, he, rfl, rfl⟩), .ret⟩
    · refine Prog.runs_bindE.2 ⟨a.head.incarnation, _, (currentIncarnation_runs hB).2 ⟨rfl, ?_⟩, ?_⟩
      · exact (counterIs_insert hapart).2 hn
      · rw [if_pos rfl]
        exact .ret

end

/-! ### Records beside a head -/

theorem recordPath_ne_head : recordPath X l r ≠ pathFrom l.headKey := (l.spare_objectKey _).1

theorem recordPath_ne_counter : recordPath X l r ≠ pathFrom l.incarnationKey := (l.spare_objectKey _).2.1

theorem Publishes.other (h : Publishes X l B s r t) {path : Str} (hne : path ≠ recordPath X l r) :
    t.lookup path = s.lookup path := by
  obtain ⟨-, _, -, rfl⟩ | ⟨-, rfl⟩ := h
  · exact AList.lookup_insert_ne hne
  · rfl

theorem Publishes.own (h : Publishes X l B s r t) : ∃ o, t.lookup (recordPath X l r) = some o ∧ o.data = r.canonicalBytes X := by
  obtain ⟨-, _, -, rfl⟩ | ⟨ho, rfl⟩ := h
  · exact ⟨_, AList.lookup_insert _, rfl⟩
  · exact ho

theorem Publishes.keeps (h : Publishes X l B s r t) {path : Str} {o : Object} (ho : s.lookup path = some o) :
    t.lookup path = some o := by
  obtain ⟨hnone, _, -, rfl⟩ | ⟨-, rfl⟩ := h
  · rw [AList.lookup_insert_ne, ho]
    rintro rfl
    cases hnone.symm.trans ho
  · exact ho

theorem PublishesAll.other (h : PublishesAll X l B s records u) {path : Str} (hne : ∀ r ∈ records, path ≠ recordPath X l r) :
    u.lookup path = s.lookup path := by
  induction h with
  | nil => rfl
  | cons _ hr _ ih =>
    rw [ih fun r hr => hne r (List.mem_cons_of_mem _ hr), hr.other (hne _ (List.mem_cons_self ..))]

theorem counterIs_congr {n : UInt64} (h : t.lookup (pathFrom l.incarnationKey) = s.lookup (pathFrom l.incarnationKey)) :
    CounterIs l t n ↔ CounterIs l s n := by
  unfold CounterIs
  rw [h]

/-- A record can be put when nothing else is in its place. -/
theorem exists_publishes (htags : ∀ d, ∃ e, B.tags d e)
    (hown : ∀ o, s.lookup (recordPath X l r) = some o → o.data = r.canonicalBytes X) : ∃ t, Publishes X l B s r t := by
  cases ho : s.lookup (recordPath X l r) with
  | none =>
    obtain ⟨e, he⟩ := htags (r.canonicalBytes X)
    exact ⟨_, .inl ⟨ho, e, he, rfl⟩⟩
  | some o => exact ⟨s, .inr ⟨⟨o, ho, hown o ho⟩, rfl⟩⟩

/-- The records can be put exactly when nothing else is in their places. -/
theorem writable_iff (htags : ∀ d, ∃ e, B.tags d e) (hl : ∀ r ∈ records, l.sameIdentity r.lineage = true) :
    Writable X l s records ↔ ∃ u, PublishesAll X l B s records u := by
  constructor
  · intro hw
    induction records generalizing s with
    | nil => exact ⟨s, .nil s⟩
    | cons r records ih =>
      obtain ⟨hown, hsame⟩ := hw r (List.mem_cons_self ..)
      obtain ⟨t, ht⟩ := exists_publishes htags hown
      have hrest : Writable X l t records := by
        intro r' hr'
        obtain ⟨hown', hsame'⟩ := hw r' (List.mem_cons_of_mem _ hr')
        refine ⟨fun o ho => ?_, fun r'' hr'' => hsame' r'' (List.mem_cons_of_mem _ hr'')⟩
        by_cases hp : recordPath X l r' = recordPath X l r
        · obtain ⟨o', ho', hd⟩ := ht.own
          rw [hp, ho'] at ho
          cases ho
          rw [hd, hsame r' (List.mem_cons_of_mem _ hr') hp]
        · exact hown' o (ht.other hp ▸ ho)
      obtain ⟨u, hu⟩ := ih (fun r' hr' => hl r' (List.mem_cons_of_mem _ hr')) hrest
      exact ⟨u, .cons (hl r (List.mem_cons_self ..)) ht hu⟩
  · rintro ⟨u, hu⟩
    induction hu with
    | nil => exact fun _ hr => absurd hr (List.not_mem_nil)
    | @cons s t u r records _ hr _ ih =>
      have hrest := ih fun r' hr' => hl r' (List.mem_cons_of_mem _ hr')
      obtain ⟨o, ho, hd⟩ := hr.own
      -- what is in the first record's place once it is put
      have hfirst : ∀ r' ∈ records, recordPath X l r' = recordPath X l r → r'.canonicalBytes X = r.canonicalBytes X := by
        intro r' hr' hp
        rw [← (hrest r' hr').1 o (hp ▸ ho), hd]
      intro r' hr'
      rcases List.mem_cons.1 hr' with rfl | hmem
      · refine ⟨fun o' ho' => ?_, fun r'' hr'' hp => ?_⟩
        · cases ho.symm.trans (hr.keeps ho')
          exact hd
        · rcases List.mem_cons.1 hr'' with rfl | hmem'
          · rfl
          · exact hfirst r'' hmem' hp
      · refine ⟨fun o' ho' => (hrest r' hmem).1 o' (hr.keeps ho'), fun r'' hr'' hp => ?_⟩
        rcases List.mem_cons.1 hr'' with rfl | hmem'
        · exact (hfirst r' hmem hp.symm).symm
        · exact (hrest r' hmem).2 r'' hmem' hp

/-- Two buckets with the same objects, etags and the head apart. -/
def Alike (l : KernelLineage) (s t : Store) : Prop :=
  ∀ path, path ≠ pathFrom l.headKey → (s.lookup path).map Object.data = (t.lookup path).map Object.data

theorem Alike.trans (h : Alike l s t) (h' : Alike l t u) : Alike l s u := fun p hp => (h p hp).trans (h' p hp)

theorem Alike.symm (h : Alike l s t) : Alike l t s := fun p hp => (h p hp).symm

theorem alike_insert_head (s : Store) (o : Object) : Alike l s (s.insert (pathFrom l.headKey) o) := by
  intro p hp
  rw [AList.lookup_insert_ne hp]

/-- Alike buckets are alike after the same record. -/
theorem Publishes.alike (h : Publishes X l B s r u) (h' : Publishes X l B t r w) (hst : Alike l s t) : Alike l u w := by
  intro path hpath
  by_cases hp : path = recordPath X l r
  · subst hp
    obtain ⟨o, ho, hd⟩ := h.own
    obtain ⟨o', ho', hd'⟩ := h'.own
    rw [ho, ho', Option.map_some, Option.map_some, hd, hd']
  · rw [h.other hp, h'.other hp]
    exact hst path hpath

theorem PublishesAll.alike (h : PublishesAll X l B s records u) (h' : PublishesAll X l B t records w) (hst : Alike l s t) :
    Alike l u w := by
  induction h generalizing t with
  | nil =>
    cases h'
    exact hst
  | cons _ hr _ ih =>
    cases h' with
    | cons _ hr' hrs' => exact ih hrs' (hr.alike hr' hst)

/-- A record that can be put in one bucket can be put in an alike one. -/
theorem Publishes.across (h : Publishes X l B s r u) (hst : Alike l s t) : ∃ w, Publishes X l B t r w := by
  have hsame := hst (recordPath X l r) recordPath_ne_head
  obtain ⟨hnone, e, he, -⟩ | ⟨⟨o, ho, hd⟩, -⟩ := h
  · rw [hnone, Option.map_none, eq_comm, Option.map_eq_none_iff] at hsame
    exact ⟨_, .inl ⟨hsame, e, he, rfl⟩⟩
  · rw [ho, Option.map_some, eq_comm, Option.map_eq_some_iff] at hsame
    obtain ⟨o', ho', hd'⟩ := hsame
    exact ⟨t, .inr ⟨⟨o', ho', hd'.trans hd⟩, rfl⟩⟩

theorem PublishesAll.across (h : PublishesAll X l B s records u) (hst : Alike l s t) : ∃ w, PublishesAll X l B t records w := by
  induction h generalizing t with
  | nil => exact ⟨t, .nil t⟩
  | cons hl hr _ ih =>
    obtain ⟨v, hv⟩ := hr.across hst
    obtain ⟨w, hw⟩ := ih (hr.alike hv hst)
    exact ⟨w, .cons hl hv hw⟩

/-- The head a record makes of the one before it. -/
def headAfter (X : Crates) (l : KernelLineage) (head : CanonicalHead) (r : CanonicalRecord) : CanonicalHead :=
  ⟨l, r.sequence, head.incarnation, r.digest X, r.prior⟩

section
variable (hB : ¬ B.faults)
include hB

theorem appendSuccessor_runs {a : HeadRead} : (appendSuccessor X l r expected).run.Runs B.exec s (.ok a) t ↔
    Current X l s expected ∧ l.sameIdentity r.lineage = true ∧ r.sequence.toNat = expected.head.generation.toNat + 1 ∧
      r.prior = some expected.head.position ∧ ∃ u, Publishes X l B s r u ∧ a.head = headAfter X l expected.head r ∧
        B.tags (a.head.canonicalBytes X) a.etag ∧ t = u.insert (pathFrom l.headKey) ⟨a.head.canonicalBytes X, a.etag⟩ := by
  unfold appendSuccessor
  by_cases hp : l.policy = .genesisOnly
  · rw [if_pos hp]
    refine ⟨fun h => ?_, fun h => absurd hp h.1.policy⟩
    cases (Prog.runs_ret.1 h).1
  rw [if_neg hp, Prog.runs_bindE]
  constructor
  · rintro ⟨⟨⟩, s₁, hcheck, hrun⟩
    obtain ⟨hl, rfl⟩ := check_runs.1 hcheck
    obtain ⟨⟨⟩, s₂, hera, hgate⟩ := Prog.runs_bindE.1 hrun
    obtain ⟨rfl, hcount⟩ := (ensureOpenEra_runs hB).1 hera
    clear hrun
    split at hgate
    · exact absurd hgate throwConflict_runs
    next hsame =>
    obtain ⟨⟨⟩, s₃, hload, hlink⟩ := Prog.runs_bindE.1 hgate
    obtain ⟨rfl, hhead⟩ := (loadExpected_runs hB).1 hload
    clear hgate
    split at hlink
    · cases (Prog.runs_ret.1 hlink).1
    next n hn =>
    split at hlink
    · cases (Prog.runs_ret.1 hlink).1
    next hfits =>
    rw [not_or, not_not, not_not] at hfits
    obtain ⟨rfl, hprior⟩ := hfits
    obtain ⟨d, u, hpublish, hadv⟩ := Prog.runs_bindE.1 hlink
    obtain ⟨-, rfl, hput⟩ := (publishRecord_runs hB).1 hpublish
    obtain ⟨-, -, ha, htag, rfl⟩ := (advanceHead_runs hB).1 hadv
    rw [Bool.not_eq_false] at hsame
    rw [← hprior] at ha htag ⊢
    rw [← ha] at htag ⊢
    exact ⟨⟨hp, hsame, hcount, hhead⟩, ensureRecordLineage_ok.1 hl, toNat_of_checkedSucc hn, rfl, u, hput, ha, htag, rfl⟩
  · rintro ⟨hc, hl, hseq, hprior, u, hput, ha, htag, rfl⟩
    have hn : checkedSucc expected.head.generation = some r.sequence := by
      have hlt := r.sequence.toNat_lt
      rw [hseq] at hlt
      rw [checkedSucc, if_pos hlt, Option.some_inj, ← UInt64.toNat_inj, UInt64.toNat_add, hseq]
      exact Nat.mod_eq_of_lt hlt
    obtain ⟨o, head, ho, hh, hsame, he⟩ := hc.head
    refine ⟨(), s, check_runs.2 ⟨ensureRecordLineage_ok.2 hl, rfl⟩, Prog.runs_bindE.2
      ⟨(), s, (ensureOpenEra_runs hB).2 ⟨rfl, hc.counter⟩, ?_⟩⟩
    rw [if_neg (by simp [hc.lineage]), Prog.runs_bindE]
    refine ⟨(), s, (loadExpected_runs hB).2 ⟨rfl, hc.head⟩, ?_⟩
    rw [hn]
    dsimp only
    rw [if_neg (by simp [hprior]), Prog.runs_bindE]
    refine ⟨_, u, (publishRecord_runs hB).2 ⟨hl, rfl, hput⟩, (advanceHead_runs hB).2 ⟨⟨o, hput.keeps ho, he⟩, ?_, ?_⟩⟩
    · exact (counterIs_congr (hput.other recordPath_ne_counter.symm)).2 hc.counter
    · rw [← hprior]
      change a.head = headAfter X l expected.head r ∧ B.tags ((headAfter X l expected.head r).canonicalBytes X) a.etag ∧ _ =
        u.insert _ ⟨(headAfter X l expected.head r).canonicalBytes X, a.etag⟩
      rw [← ha]
      exact ⟨rfl, htag, rfl⟩

omit hB in
/-- A head of this lineage that was just written can be succeeded. -/
theorem current_insert {a : HeadRead} (hp : l.policy ≠ .genesisOnly) (hl : a.head.lineage = l) (hfits : a.head.WellFormed)
    (hn : CounterIs l u a.head.incarnation) :
    Current X l (u.insert (pathFrom l.headKey) ⟨a.head.canonicalBytes X, a.etag⟩) a := by
  have hread : CanonicalHead.fromBytes X l (a.head.canonicalBytes X) = .ok a.head := by
    have hrt := CanonicalHead.fromBytes_canonicalBytes (X := X) (h := a.head) hfits
    rwa [hl] at hrt
  refine ⟨hp, ?_, (counterIs_insert l.slots.control_ne_counter.symm).2 hn, ⟨_, a.head, AList.lookup_insert _, hread, ?_, rfl⟩⟩
  · simp [hl, KernelLineage.sameIdentity]
  · simp [CanonicalHead.sameIdentity, KernelLineage.sameIdentity]

omit hB in
theorem Current.next {a : HeadRead} (h : Current X l s expected) (hput : Publishes X l B s r u)
    (ha : a.head = headAfter X l expected.head r) :
    Current X l (u.insert (pathFrom l.headKey) ⟨a.head.canonicalBytes X, a.etag⟩) a := by
  have hvalid := r.valid
  unfold recordFieldsValid at hvalid
  refine current_insert h.policy (ha ▸ rfl) ?_ ((counterIs_congr (hput.other recordPath_ne_counter.symm)).2 ?_)
  · rw [ha]
    exact (Bool.and_eq_true_iff.1 hvalid).2
  · rw [ha]
    exact h.counter

/-- `records` were put on `s`, and `a` was made the head. -/
structure Lands (X : Crates) (l : KernelLineage) (B : Backend) (s : Store) (records : List CanonicalRecord)
    (before : CanonicalHead) (a : HeadRead) (t : Store) : Prop where
  objects : ∃ u, PublishesAll X l B s records u ∧ Alike l u t
  head : a.head = records.foldl (headAfter X l) before
  current : t.lookup (pathFrom l.headKey) = some ⟨a.head.canonicalBytes X, a.etag⟩

/-- The single appends begin at the current head, their records follow one another, and they end where the batch would. -/
theorem appendEach_runs {a : HeadRead} (h : (appendEach X l (r :: records) expected).run.Runs B.exec s (.ok a) t) :
    Current X l s expected ∧ (∃ q, Follows X l expected.head.position (r :: records) q) ∧
      Lands X l B s (r :: records) expected.head a t := by
  induction records generalizing s expected r with
  | nil =>
    obtain ⟨b, v, hstep, hret⟩ := Prog.runs_bindE.1 h
    obtain ⟨hab, rfl⟩ := Prog.runs_ret.1 hret
    cases hab
    obtain ⟨hc, hl, hseq, hprior, u, hput, ha, -, rfl⟩ := (appendSuccessor_runs hB).1 hstep
    exact ⟨hc, ⟨_, .cons hl hseq hprior (.nil _)⟩, ⟨u, .cons hl hput (.nil u), alike_insert_head u _⟩, ha, AList.lookup_insert _⟩
  | cons r' records ih =>
    obtain ⟨b, v, hstep, hrest⟩ := Prog.runs_bindE.1 h
    obtain ⟨hc, hl, hseq, hprior, u, hput, hb, -, rfl⟩ := (appendSuccessor_runs hB).1 hstep
    obtain ⟨-, ⟨q, hq⟩, ⟨w, hw, hwt⟩, ha, hat⟩ := ih hrest
    have hpos : b.head.position = r.position X := by
      rw [hb]
      rfl
    -- the head in between is not seen by the records
    obtain ⟨w', hw'⟩ := hw.across (alike_insert_head u _).symm
    have hsame : Alike l w' w := hw'.alike hw (alike_insert_head u _)
    exact ⟨hc, ⟨q, .cons hl hseq hprior (hpos ▸ hq)⟩, ⟨w', .cons hl hput hw', hsame.trans hwt⟩, ha.trans (by rw [hb]; rfl), hat⟩

/-- Records that follow one another and can be put are appended one by one. -/
theorem appendEach_exists (htags : ∀ d, ∃ e, B.tags d e) (hc : Current X l s expected)
    (hf : Follows X l expected.head.position records q) (hu : PublishesAll X l B s records u) :
    ∃ a t, (appendEach X l records expected).run.Runs B.exec s (.ok a) t := by
  induction records generalizing s u expected with
  | nil => exact ⟨expected, s, .ret⟩
  | cons r records ih =>
    cases hf with
    | cons hl hseq hprior hrs =>
    cases hu with
    | cons _ hput hrest =>
    obtain ⟨e, he⟩ := htags ((headAfter X l expected.head r).canonicalBytes X)
    obtain ⟨w, hw⟩ := hrest.across (alike_insert_head _ ⟨(headAfter X l expected.head r).canonicalBytes X, e⟩)
    obtain ⟨a, t, hrun⟩ := ih (hc.next hput (a := ⟨headAfter X l expected.head r, e⟩) rfl) hrs hw
    exact ⟨a, t, Prog.runs_bindE.2
      ⟨⟨_, e⟩, _, (appendSuccessor_runs hB).2 ⟨hc, hl, hseq, hprior, _, hput, rfl, he, rfl⟩, hrun⟩⟩

omit hB in
/-- The head the batch writes is the last of the single heads. -/
theorem Follows.foldl (h : Follows X l p (r :: records) q) (head : CanonicalHead) :
    (r :: records).foldl (headAfter X l) head =
      ⟨l, q.generation, head.incarnation, q.digest, (r :: records).getLast?.bind (·.prior)⟩ := by
  induction records generalizing p r head with
  | nil =>
    cases h with
    | cons _ _ _ hrs =>
    cases hrs
    rfl
  | cons r' records ih =>
    cases h with
    | cons _ _ _ hrs =>
    rw [List.foldl_cons, ih hrs, List.getLast?_cons_cons]
    rfl

/-- The batch is accepted under the same conditions, and short of the last generation. -/
theorem appendSuccessorBatch_runs {a : HeadRead} (hne : records ≠ []) :
    (appendSuccessorBatch X l records expected).run.Runs B.exec s (.ok a) t ↔ Current X l s expected ∧
      ∃ q u, Follows X l expected.head.position records q ∧ q.generation.toNat + 1 < 2 ^ 64 ∧ PublishesAll X l B s records u ∧
        a.head = records.foldl (headAfter X l) expected.head ∧ B.tags (a.head.canonicalBytes X) a.etag ∧
        t = u.insert (pathFrom l.headKey) ⟨a.head.canonicalBytes X, a.etag⟩ := by
  unfold appendSuccessorBatch
  by_cases hp : l.policy = .genesisOnly
  · rw [if_pos hp]
    refine ⟨fun h => ?_, fun h => absurd hp h.1.policy⟩
    cases (Prog.runs_ret.1 h).1
  rw [if_neg hp]
  constructor
  · intro hrun
    split at hrun
    · exact absurd hrun throwConflict_runs
    next hsame =>
    obtain ⟨⟨⟩, s₂, hera, hgate⟩ := Prog.runs_bindE.1 hrun
    obtain ⟨rfl, hcount⟩ := (ensureOpenEra_runs hB).1 hera
    obtain ⟨⟨⟩, s₃, hload, hlink⟩ := Prog.runs_bindE.1 hgate
    obtain ⟨rfl, hhead⟩ := (loadExpected_runs hB).1 hload
    clear hrun hgate
    split at hlink
    · cases (Prog.runs_ret.1 hlink).1
    next n hn =>
    obtain ⟨q, s₄, hcheck, hpublish⟩ := Prog.runs_bindE.1 hlink
    obtain ⟨hvalid, rfl⟩ := check_runs.1 hcheck
    obtain ⟨hf, hlt⟩ := (validateRecordBatch_ok (toNat_of_checkedSucc hn)).1 hvalid
    obtain ⟨⟨⟩, u, hputs, hadv⟩ := Prog.runs_bindE.1 hpublish
    obtain ⟨-, -, ha, htag, rfl⟩ := (advanceHead_runs hB).1 hadv
    rw [Bool.not_eq_false] at hsame
    obtain ⟨r, rs, rfl⟩ := List.exists_cons_of_ne_nil hne
    rw [← hf.foldl] at ha htag ⊢
    rw [← ha] at htag ⊢
    exact ⟨⟨hp, hsame, hcount, hhead⟩, q, u, hf, hlt hne, (publishRecords_runs hB).1 hputs, rfl, htag, rfl⟩
  · rintro ⟨hc, q, u, hf, hlt, hputs, ha, htag, rfl⟩
    have hlen := List.length_pos_iff.2 hne
    have hgen := hf.generation
    have hpos : expected.head.position.generation = expected.head.generation := rfl
    have hn : checkedSucc expected.head.generation = some (expected.head.generation + 1) :=
      if_pos (by rw [hpos] at hgen; omega)
    rw [if_neg (by simp [hc.lineage])]
    refine Prog.runs_bindE.2 ⟨(), s, (ensureOpenEra_runs hB).2 ⟨rfl, hc.counter⟩, Prog.runs_bindE.2
      ⟨(), s, (loadExpected_runs hB).2 ⟨rfl, hc.head⟩, ?_⟩⟩
    rw [hn]
    refine Prog.runs_bindE.2 ⟨q, s, check_runs.2 ⟨(validateRecordBatch_ok (toNat_of_checkedSucc hn)).2 ⟨hf, fun _ => hlt⟩, rfl⟩,
      Prog.runs_bindE.2 ⟨(), u, (publishRecords_runs hB).2 hputs, (advanceHead_runs hB).2 ⟨?_, ?_, ?_⟩⟩⟩
    · obtain ⟨o, -, ho, -, -, he⟩ := hc.head
      exact ⟨o, by rw [hputs.other fun r _ => recordPath_ne_head.symm, ho], he⟩
    · exact (counterIs_congr (hputs.other fun r _ => recordPath_ne_counter.symm)).2 hc.counter
    · obtain ⟨r, rs, rfl⟩ := List.exists_cons_of_ne_nil hne
      rw [← hf.foldl, ← ha]
      exact ⟨rfl, htag, rfl⟩

/-- A genesis head is created where none is, of the incarnation the counter reads. -/
theorem createHead_runs {g : UInt64} {d : RecordDigest} {prior : Option RecordPosition} {tries : ℕ} {a : HeadRead} :
    (createHead X l g d prior (tries + 1)).run.Runs B.exec s (.ok a) t ↔ s.lookup (pathFrom l.headKey) = none ∧
      ∃ n, CounterIs l s n ∧ a.head = ⟨l, g, n, d, prior⟩ ∧ B.tags (a.head.canonicalBytes X) a.etag ∧
        t = s.insert (pathFrom l.headKey) ⟨a.head.canonicalBytes X, a.etag⟩ := by
  have hapart : pathFrom l.incarnationKey ≠ pathFrom l.headKey := l.slots.control_ne_counter.symm
  rw [createHead, Prog.runs_bindE]
  simp only [currentIncarnation_runs hB]
  constructor
  · rintro ⟨n, s₁, ⟨rfl, hn⟩, hrun⟩
    unfold uploadConditional at hrun
    rw [Op.run_ask_bind, Prog.runs_call] at hrun
    obtain ⟨x, u, hput, hret⟩ := hrun
    rcases (exec_put hB).1 hput with ⟨ha, e, he, rfl, rfl⟩ | ⟨-, -, rfl⟩
    · obtain ⟨m, u, hcount, hret⟩ := Prog.runs_bindE.1 hret
      obtain ⟨rfl, hm⟩ := (currentIncarnation_runs hB).1 hcount
      rw [counterIs_insert hapart] at hm
      split at hret
      · obtain ⟨hok, rfl⟩ := Prog.runs_ret.1 hret
        cases hok
        exact ⟨Store.accepts_none.1 ha, n, hn, rfl, he, rfl⟩
      · next hne => exact absurd (hm.unique hn) hne
    · exact absurd hret throwConflict_runs
  · rintro ⟨hnone, n, hn, ha, htag, rfl⟩
    refine ⟨n, s, ⟨rfl, hn⟩, ?_⟩
    unfold uploadConditional
    rw [Op.run_ask_bind, Prog.runs_call]
    refine ⟨.ok (some a.etag), _, (exec_put hB).2 (.inl ⟨Store.accepts_none.2 hnone, a.etag, ha ▸ htag, rfl, rfl⟩),
      Prog.runs_bindE.2 ⟨n, _, (currentIncarnation_runs hB).2 ⟨rfl, (counterIs_insert hapart).2 hn⟩, ?_⟩⟩
    rw [if_pos rfl, ← ha]
    exact .ret

theorem appendGenesis_runs {a : HeadRead} : (appendGenesis X l r).run.Runs B.exec s (.ok a) t ↔
    l.sameIdentity r.lineage = true ∧ r.sequence = 0 ∧ r.prior = none ∧ s.lookup (pathFrom l.headKey) = none ∧
      ∃ n u, CounterIs l s n ∧ Publishes X l B s r u ∧ a.head = ⟨l, 0, n, r.digest X, none⟩ ∧
        B.tags (a.head.canonicalBytes X) a.etag ∧ t = u.insert (pathFrom l.headKey) ⟨a.head.canonicalBytes X, a.etag⟩ := by
  unfold appendGenesis
  rw [Prog.runs_bindE]
  constructor
  · rintro ⟨⟨⟩, s₁, hcheck, hrun⟩
    obtain ⟨hl, rfl⟩ := check_runs.1 hcheck
    split at hrun
    · cases (Prog.runs_ret.1 hrun).1
    next hfirst =>
    rw [not_or, not_not, not_not] at hfirst
    obtain ⟨d, u, hpublish, hcreate⟩ := Prog.runs_bindE.1 hrun
    obtain ⟨-, rfl, hput⟩ := (publishRecord_runs hB).1 hpublish
    obtain ⟨hnone, n, hn, ha, htag, rfl⟩ := (createHead_runs hB).1 hcreate
    rw [hput.other recordPath_ne_head.symm] at hnone
    rw [counterIs_congr (hput.other recordPath_ne_counter.symm)] at hn
    exact ⟨ensureRecordLineage_ok.1 hl, hfirst.1, hfirst.2, hnone, n, u, hn, hput, ha, htag, rfl⟩
  · rintro ⟨hl, hzero, hprior, hnone, n, u, hn, hput, ha, htag, rfl⟩
    refine ⟨(), s, check_runs.2 ⟨ensureRecordLineage_ok.2 hl, rfl⟩, ?_⟩
    rw [if_neg (by simp [hzero, hprior])]
    refine Prog.runs_bindE.2 ⟨_, u, (publishRecord_runs hB).2 ⟨hl, rfl, hput⟩, (createHead_runs hB).2 ⟨?_, n, ?_, ha, htag, rfl⟩⟩
    · rw [hput.other recordPath_ne_head.symm, hnone]
    · exact (counterIs_congr (hput.other recordPath_ne_counter.symm)).2 hn

/-- A slice is no longer than the generations there are. -/
theorem appendGenesisBatch_runs {a : HeadRead} (hlen : (r :: records).length < 2 ^ 64) :
    (appendGenesisBatch X l (r :: records)).run.Runs B.exec s (.ok a) t ↔
      l.sameIdentity r.lineage = true ∧ r.sequence = 0 ∧ r.prior = none ∧ s.lookup (pathFrom l.headKey) = none ∧
      ∃ n q u, CounterIs l s n ∧ Follows X l (r.position X) records q ∧ PublishesAll X l B s (r :: records) u ∧
        a.head = records.foldl (headAfter X l) ⟨l, 0, n, r.digest X, none⟩ ∧ B.tags (a.head.canonicalBytes X) a.etag ∧
        t = u.insert (pathFrom l.headKey) ⟨a.head.canonicalBytes X, a.etag⟩ := by
  -- the head the batch writes
  have hhead : ∀ {n q}, Follows X l (r.position X) records q → r.sequence = 0 → r.prior = none →
      records.foldl (headAfter X l) ⟨l, 0, n, r.digest X, none⟩ =
        ⟨l, q.generation, n, q.digest, (r :: records).getLast?.bind (·.prior)⟩ := by
    intro n q hf hzero hprior
    cases records with
    | nil =>
      cases hf
      rw [List.getLast?_singleton, Option.bind_some, hprior]
      simp [CanonicalRecord.position, hzero]
    | cons r' records => rw [hf.foldl, List.getLast?_cons_cons]
  -- what its check accepts
  have hcheck : ∀ {q}, validateRecordBatch X l (r :: records) 0 none = .ok q ↔
      l.sameIdentity r.lineage = true ∧ r.sequence = 0 ∧ r.prior = none ∧ Follows X l (r.position X) records q := by
    intro q
    have hone : checkedSucc 0 = some 1 := by decide
    have hnext : ∀ {q}, validateRecordBatch X l records 1 (some ⟨0, r.digest X⟩) = .ok q ↔
        Follows X l ⟨0, r.digest X⟩ records q := by
      intro q
      refine (validateRecordBatch_ok (show (1 : UInt64).toNat = (0 : UInt64).toNat + 1 by decide)).trans ⟨And.left, fun h => ⟨h, fun _ => ?_⟩⟩
      rw [h.generation]
      simpa [Nat.add_comm] using hlen
    rw [validateRecordBatch]
    constructor
    · intro h
      split at h
      · cases h
      next hl =>
      split at h
      · cases h
      next hfirst =>
      rw [not_or, not_not, not_not] at hfirst
      rw [hone] at h
      refine ⟨ensureRecordLineage_ok.1 hl, hfirst.1, hfirst.2, ?_⟩
      rw [CanonicalRecord.position, hfirst.1]
      exact hnext.1 h
    · rintro ⟨hl, hzero, hprior, hf⟩
      rw [ensureRecordLineage_ok.2 hl]
      dsimp only
      rw [if_neg (by simp [hzero, hprior]), hone]
      rw [CanonicalRecord.position, hzero] at hf
      exact hnext.2 hf
  unfold appendGenesisBatch
  rw [Prog.runs_bindE]
  constructor
  · rintro ⟨q, s₁, hvalid, hrun⟩
    obtain ⟨hok, rfl⟩ := check_runs.1 hvalid
    obtain ⟨hl, hzero, hprior, hf⟩ := hcheck.1 hok
    obtain ⟨⟨⟩, u, hputs, hcreate⟩ := Prog.runs_bindE.1 hrun
    rw [publishRecords_runs hB] at hputs
    obtain ⟨hnone, n, hn, ha, htag, rfl⟩ := (createHead_runs hB).1 hcreate
    rw [hputs.other fun r _ => recordPath_ne_head.symm] at hnone
    rw [counterIs_congr (hputs.other fun r _ => recordPath_ne_counter.symm)] at hn
    exact ⟨hl, hzero, hprior, hnone, n, q, u, hn, hf, hputs, ha.trans (hhead hf hzero hprior).symm, htag, rfl⟩
  · rintro ⟨hl, hzero, hprior, hnone, n, q, u, hn, hf, hputs, ha, htag, rfl⟩
    refine ⟨q, s, check_runs.2 ⟨hcheck.2 ⟨hl, hzero, hprior, hf⟩, rfl⟩, Prog.runs_bindE.2
      ⟨(), u, (publishRecords_runs hB).2 hputs, (createHead_runs hB).2 ⟨?_, n, ?_, ha.trans (hhead hf hzero hprior), htag, rfl⟩⟩⟩
    · rw [hputs.other fun r _ => recordPath_ne_head.symm, hnone]
    · exact (counterIs_congr (hputs.other fun r _ => recordPath_ne_counter.symm)).2 hn

end

/-! ### The comparison -/

/-- Two appends succeed in the same buckets, and leave the same head and the same objects. -/
structure Agree (B : Backend) (s : Store) (batch each : KernelOp HeadRead) : Prop where
  succeeds : (∃ a t, batch.run.Runs B.exec s (.ok a) t) ↔ ∃ a t, each.run.Runs B.exec s (.ok a) t
  same : ∀ {a a' t t'}, batch.run.Runs B.exec s (.ok a) t → each.run.Runs B.exec s (.ok a') t' →
    a.head = a'.head ∧ ∀ path, (t.lookup path).map Object.data = (t'.lookup path).map Object.data

theorem Lands.same {before : CanonicalHead} {a a' : HeadRead} {t' : Store} (h : Lands X l B s records before a t)
    (h' : Lands X l B s records before a' t') :
    a.head = a'.head ∧ ∀ path, (t.lookup path).map Object.data = (t'.lookup path).map Object.data := by
  obtain ⟨u, hu, hut⟩ := h.objects
  obtain ⟨u', hu', hut'⟩ := h'.objects
  have hhead : a.head = a'.head := h.head.trans h'.head.symm
  refine ⟨hhead, fun path => ?_⟩
  by_cases hp : path = pathFrom l.headKey
  · rw [hp, h.current, h'.current, Option.map_some, Option.map_some, hhead]
  · exact ((hut.symm.trans (hu.alike hu' fun _ _ => rfl)).trans hut') path hp

/-- The single appends of records that can be appended, at the last generation there is. -/
def AtLast (X : Crates) (l : KernelLineage) (s : Store) (expected : HeadRead) (records : List CanonicalRecord) : Prop :=
  Appendable X l s expected records ∧ expected.head.generation.toNat + records.length = 2 ^ 64 - 1

theorem appendEach_iff (hB : ¬ B.faults) (htags : ∀ d, ∃ e, B.tags d e) (hne : records ≠ []) :
    (∃ a t, (appendEach X l records expected).run.Runs B.exec s (.ok a) t) ↔ Appendable X l s expected records := by
  obtain ⟨r, rs, rfl⟩ := List.exists_cons_of_ne_nil hne
  constructor
  · rintro ⟨a, t, h⟩
    obtain ⟨hc, ⟨q, hq⟩, hlands⟩ := appendEach_runs hB h
    obtain ⟨u, hu, -⟩ := hlands.objects
    exact ⟨hc, ⟨q, hq⟩, (writable_iff htags hq.lineages).2 ⟨u, hu⟩⟩
  · rintro ⟨hc, ⟨q, hq⟩, hw⟩
    obtain ⟨u, hu⟩ := (writable_iff htags hq.lineages).1 hw
    exact appendEach_exists hB htags hc hq hu

/-- The batch agrees with its single appends, unless they end at the last generation. -/
theorem appendSuccessorBatch_agrees (hB : ¬ B.faults) (htags : ∀ d, ∃ e, B.tags d e) (hne : records ≠ []) :
    Agree B s (appendSuccessorBatch X l records expected) (appendEach X l records expected) ↔ ¬ AtLast X l s expected records := by
  have heach : (∃ a t, (appendEach X l records expected).run.Runs B.exec s (.ok a) t) ↔ Appendable X l s expected records :=
    appendEach_iff hB htags hne
  constructor
  · rintro hagree ⟨happ, hlast⟩
    obtain ⟨a, t, h⟩ := hagree.succeeds.2 (heach.2 happ)
    obtain ⟨-, q, u, hf, hlt, -⟩ := (appendSuccessorBatch_runs hB hne).1 h
    rw [hf.generation] at hlt
    have hpos : expected.head.position.generation = expected.head.generation := rfl
    rw [hpos] at hlt
    omega
  · intro hlast
    refine ⟨⟨?_, ?_⟩, ?_⟩
    · rintro ⟨a, t, h⟩
      obtain ⟨hc, q, u, hf, -, hu, -⟩ := (appendSuccessorBatch_runs hB hne).1 h
      exact heach.2 ⟨hc, ⟨q, hf⟩, (writable_iff htags hf.lineages).2 ⟨u, hu⟩⟩
    · intro h
      obtain ⟨hc, ⟨q, hf⟩, hw⟩ := heach.1 h
      obtain ⟨u, hu⟩ := (writable_iff htags hf.lineages).1 hw
      obtain ⟨e, he⟩ := htags ((records.foldl (headAfter X l) expected.head).canonicalBytes X)
      have hpos : expected.head.position.generation = expected.head.generation := rfl
      have hlt : q.generation.toNat + 1 < 2 ^ 64 := by
        have hgen := hf.generation
        have hq := q.generation.toNat_lt
        have hne' : expected.head.generation.toNat + records.length ≠ 2 ^ 64 - 1 := fun h' => hlast ⟨⟨hc, ⟨q, hf⟩, hw⟩, h'⟩
        rw [hpos] at hgen
        omega
      exact ⟨⟨_, e⟩, _, (appendSuccessorBatch_runs hB hne).2 ⟨hc, q, u, hf, hlt, hu, rfl, he, rfl⟩⟩
    · intro a a' t t' h h'
      obtain ⟨-, q, u, hf, -, hu, ha, -, rfl⟩ := (appendSuccessorBatch_runs hB hne).1 h
      obtain ⟨r, rs, rfl⟩ := List.exists_cons_of_ne_nil hne
      obtain ⟨-, -, hlands⟩ := appendEach_runs hB h'
      exact Lands.same ⟨⟨u, hu, alike_insert_head u _⟩, ha, AList.lookup_insert _⟩ hlands

section
variable (hB : ¬ B.faults)
include hB

theorem appendGenesisEach_runs {a : HeadRead} (h : (appendGenesisEach X l r records).run.Runs B.exec s (.ok a) t) :
    (l.sameIdentity r.lineage = true ∧ r.sequence = 0 ∧ r.prior = none ∧ s.lookup (pathFrom l.headKey) = none) ∧
      (∃ q, Follows X l (r.position X) records q) ∧
      ∃ n, CounterIs l s n ∧ Lands X l B s (r :: records) ⟨l, 0, n, r.digest X, none⟩ a t := by
  obtain ⟨b, v, hgenesis, hrest⟩ := Prog.runs_bindE.1 h
  obtain ⟨hl, hzero, hprior, hnone, n, u, hn, hput, hb, -, rfl⟩ := (appendGenesis_runs hB).1 hgenesis
  have hfirst : headAfter X l ⟨l, 0, n, r.digest X, none⟩ r = b.head := by
    rw [hb, headAfter, hzero, hprior]
  refine ⟨⟨hl, hzero, hprior, hnone⟩, ?_⟩
  cases records with
  | nil =>
    obtain ⟨hab, rfl⟩ := Prog.runs_ret.1 hrest
    cases hab
    exact ⟨⟨_, .nil _⟩, n, hn, ⟨u, .cons hl hput (.nil u), alike_insert_head u _⟩, hfirst.symm, AList.lookup_insert _⟩
  | cons r' records =>
    obtain ⟨-, ⟨q, hq⟩, ⟨w, hw, hwt⟩, ha, hat⟩ := appendEach_runs hB hrest
    have hpos : b.head.position = r.position X := by
      rw [hb, CanonicalHead.position, CanonicalRecord.position, hzero]
    obtain ⟨w', hw'⟩ := hw.across (alike_insert_head u _).symm
    have hsame : Alike l w' w := hw'.alike hw (alike_insert_head u _)
    refine ⟨⟨q, hpos ▸ hq⟩, n, hn, ⟨w', .cons hl hput hw', hsame.trans hwt⟩, ?_, hat⟩
    rw [List.foldl_cons, hfirst]
    exact ha

/-- The genesis batch agrees with the genesis append and the single appends after it. -/
theorem appendGenesisBatch_agrees (htags : ∀ d, ∃ e, B.tags d e) (hp : l.policy ≠ .genesisOnly)
    (hlen : (r :: records).length < 2 ^ 64) :
    Agree B s (appendGenesisBatch X l (r :: records)) (appendGenesisEach X l r records) := by
  refine ⟨⟨?_, ?_⟩, ?_⟩
  · rintro ⟨a, t, h⟩
    obtain ⟨hl, hzero, hprior, hnone, n, q, u, hn, hf, hputs, -⟩ := (appendGenesisBatch_runs hB hlen).1 h
    cases hputs with
    | @cons _ v _ _ _ _ hput hrest =>
    let head : CanonicalHead := ⟨l, 0, n, r.digest X, none⟩
    obtain ⟨e, he⟩ := htags (head.canonicalBytes X)
    obtain ⟨w, hw⟩ := hrest.across (alike_insert_head v ⟨head.canonicalBytes X, e⟩)
    have hc : Current X l (v.insert (pathFrom l.headKey) ⟨head.canonicalBytes X, e⟩) ⟨head, e⟩ :=
      current_insert (a := ⟨head, e⟩) hp rfl (show priorFits 0 none = true by decide)
        ((counterIs_congr (hput.other recordPath_ne_counter.symm)).2 hn)
    have hpos : head.position = r.position X := by rw [CanonicalHead.position, CanonicalRecord.position, hzero]
    obtain ⟨a', t', h'⟩ := appendEach_exists hB htags hc (hpos ▸ hf) hw
    exact ⟨a', t', Prog.runs_bindE.2
      ⟨⟨head, e⟩, _, (appendGenesis_runs hB).2 ⟨hl, hzero, hprior, hnone, n, v, hn, hput, rfl, he, rfl⟩, h'⟩⟩
  · rintro ⟨a, t, h⟩
    obtain ⟨⟨hl, hzero, hprior, hnone⟩, ⟨q, hf⟩, n, hn, ⟨u, hu, -⟩, -⟩ := appendGenesisEach_runs hB h
    obtain ⟨e, he⟩ := htags ((records.foldl (headAfter X l) ⟨l, 0, n, r.digest X, none⟩).canonicalBytes X)
    exact ⟨⟨_, e⟩, _, (appendGenesisBatch_runs hB hlen).2 ⟨hl, hzero, hprior, hnone, n, q, u, hn, hf, hu, rfl, he, rfl⟩⟩
  · intro a a' t t' h h'
    obtain ⟨-, hzero, hprior, -, n, q, u, hn, hf, hu, ha, -, rfl⟩ := (appendGenesisBatch_runs hB hlen).1 h
    obtain ⟨-, -, m, hm, hlands⟩ := appendGenesisEach_runs hB h'
    cases hn.unique hm
    refine Lands.same ⟨⟨u, hu, alike_insert_head u _⟩, ?_, AList.lookup_insert _⟩ hlands
    rw [ha, List.foldl_cons, headAfter, hzero, hprior]

end

/-! ### Refusals -/

/-- What is only read stays. -/
theorem stays_of_gets {α : Type} {p : KernelOp α} {x : Except KernelError α} (hp : p.run.Every (fun q => ∃ path, q = .get path) fun _ => True)
    (h : p.run.Runs B.exec s x t) : t = s := by
  refine (h.keep hp (J := (· = s)) ?_ rfl).1
  rintro s' q y s'' rfl ⟨path, rfl⟩ ⟨hs, -⟩
  exact hs

/-- The check of a batch refuses it. -/
def Refused (X : Crates) (l : KernelLineage) (records : List CanonicalRecord) (first : UInt64) (prior : Option RecordPosition) :
    Prop :=
  ∃ e, validateRecordBatch X l records first prior = .error e

/-- A batch its check refuses writes nothing. -/
theorem appendSuccessorBatch_refused {x : Except KernelError HeadRead}
    (hrefused : ∀ n, checkedSucc expected.head.generation = some n → Refused X l records n (some expected.head.position))
    (h : (appendSuccessorBatch X l records expected).run.Runs B.exec s x t) : t = s := by
  refine stays_of_gets ?_ h
  have hget : ∀ path, ∃ path', Req.get path = .get path' := fun path => ⟨path, rfl⟩
  unfold appendSuccessorBatch
  split
  · trivial
  split
  · exact every_throwConflict X hget fun _ => trivial
  refine Prog.every_bind_trivial (every_ensureOpenEra X hget _) fun _ => ?_
  refine Prog.every_bind_trivial (every_loadExpected X hget _) fun _ => ?_
  split
  · trivial
  next n hn =>
  obtain ⟨e, he⟩ := hrefused n hn
  rw [he]
  trivial

theorem appendGenesisBatch_refused {x : Except KernelError HeadRead} (hrefused : Refused X l records 0 none)
    (h : (appendGenesisBatch X l records).run.Runs B.exec s x t) : t = s := by
  obtain ⟨e, he⟩ := hrefused
  refine stays_of_gets ?_ h
  unfold appendGenesisBatch
  rw [he]
  trivial

/-! ### The law -/

/-- What a batch append is to its single appends. -/
structure BatchLaw (X : Crates) (l : KernelLineage) (B : Backend) (s : Store) : Prop where
  successor : ∀ {records : List CanonicalRecord} {expected : HeadRead}, records ≠ [] →
    (Agree B s (appendSuccessorBatch X l records expected) (appendEach X l records expected) ↔ ¬ AtLast X l s expected records)
  genesis : ∀ {record : CanonicalRecord} {records : List CanonicalRecord}, l.policy ≠ .genesisOnly →
    (record :: records).length < 2 ^ 64 →
    Agree B s (appendGenesisBatch X l (record :: records)) (appendGenesisEach X l record records)
  refused : ∀ {records : List CanonicalRecord} {expected : HeadRead} {x : Except KernelError HeadRead} {t : Store},
    (∀ n, checkedSucc expected.head.generation = some n → Refused X l records n (some expected.head.position)) →
    (appendSuccessorBatch X l records expected).run.Runs B.exec s x t → t = s
  refusedGenesis : ∀ {records : List CanonicalRecord} {x : Except KernelError HeadRead} {t : Store},
    Refused X l records 0 none → (appendGenesisBatch X l records).run.Runs B.exec s x t → t = s

/-- On a store that does not fail, a batch does what its single appends do, unless they end at the last generation: then it is
refused and they are not. -/
theorem batch_or_each (hB : ¬ B.faults) (htags : ∀ d, ∃ e, B.tags d e) (s : Store) : BatchLaw X l B s where
  successor := appendSuccessorBatch_agrees hB htags
  genesis := appendGenesisBatch_agrees hB htags
  refused := appendSuccessorBatch_refused
  refusedGenesis := appendGenesisBatch_refused

theorem batch_or_each_letter : BatchLaw Serde.crates letterLineage .honest (headStore letterHead.head) :=
  batch_or_each id (fun _ => ⟨_, rfl⟩) _

/-- A head two generations short of the last. -/
def lateHead : HeadRead :=
  let head : CanonicalHead :=
    ⟨letterLineage, 0xfffffffffffffffe, 0, letterGenesis.digest Serde.crates,
      some ⟨0xfffffffffffffffd, letterGenesis.digest Serde.crates⟩⟩
  ⟨head, contentTag (head.canonicalBytes Serde.crates)⟩

/-- The record of the last generation. -/
def lastRecord : CanonicalRecord :=
  ⟨letterLineage, 0xffffffffffffffff, some lateHead.head.position, "t".toList, "s".toList, [9], "o".toList, "p".toList,
    "c".toList, by decide⟩

/-- The record of the last generation can be appended, and its batch cannot. -/
theorem last_not_batched : ¬ Agree .honest (headStore lateHead.head)
    (appendSuccessorBatch Serde.crates letterLineage [lastRecord] lateHead)
    (appendEach Serde.crates letterLineage [lastRecord] lateHead) := by
  rw [appendSuccessorBatch_agrees id (fun _ => ⟨_, rfl⟩) (List.cons_ne_nil _ _), not_not]
  have hnone : ∀ {p}, p ≠ pathFrom letterLineage.headKey → (headStore lateHead.head).lookup p = none := fun hp =>
    AList.lookup_insert_ne hp
  have hcounter : CounterIs letterLineage (headStore lateHead.head) 0 := by
    unfold CounterIs
    rw [hnone (p := pathFrom letterLineage.incarnationKey) letterLineage.slots.control_ne_counter.symm]
  have hhead : HeadIs Serde.crates letterLineage (headStore lateHead.head) lateHead :=
    ⟨_, lateHead.head, AList.lookup_insert _, CanonicalHead.fromBytes_canonicalBytes (h := lateHead.head) (by decide),
      by decide +kernel, rfl⟩
  have hlinked : Follows Serde.crates letterLineage lateHead.head.position [lastRecord] (lastRecord.position Serde.crates) :=
    .cons (by decide) (by decide +kernel) rfl (.nil _)
  refine ⟨⟨⟨nofun, by decide, hcounter, hhead⟩, ⟨_, hlinked⟩, ?_⟩, by decide +kernel⟩
  intro r hr
  rw [List.mem_singleton.1 hr]
  refine ⟨fun o ho => ?_, fun r' hr' _ => by rw [List.mem_singleton.1 hr']⟩
  cases (hnone recordPath_ne_head).symm.trans ho

end YeetzS3.Lineage
