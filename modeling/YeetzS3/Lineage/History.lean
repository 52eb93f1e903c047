import YeetzS3.Lineage.Batches
import YeetzS3.Lineage.Calls
import YeetzS3.Lineage.Fold

/-!
# Heads stand on whole histories

In every run of `lineageSystem` whose batches are not empty, every head that is ever there decodes, its records are there from
the genesis on, and a head that takes the place of another goes on from the other's records.
-/

namespace YeetzS3.Lineage

open Conc

section
variable (X : Crates) (l : KernelLineage)

/-- A record's object holds it. -/
def Stored (s : Store) (r : CanonicalRecord) : Prop := ∃ o, s.lookup (recordPath X l r) = some o ∧ o.data = r.canonicalBytes X

/-- From a position back to the genesis: the records, newest first, are all there. -/
inductive Rooted (s : Store) : Option RecordPosition → List CanonicalRecord → Prop where
  | nil : Rooted s none []
  | cons {r : CanonicalRecord} {ws : List CanonicalRecord} (hl : r.lineage = l) (hs : Stored X l s r)
      (hn : r.sequence.toNat = ws.length) (hw : Rooted s r.prior ws) : Rooted s (some (r.position X)) (r :: ws)

/-- The records of a head. -/
structure Complete (s : Store) (head : CanonicalHead) (ws : List CanonicalRecord) : Prop where
  rooted : Rooted X l s (some head.position) ws
  prior : head.prior = ws.head?.bind (·.prior)

/-- The head that is there. -/
def HeadAt (s : Store) (head : CanonicalHead) : Prop :=
  ∃ o, s.lookup (pathFrom l.headKey) = some o ∧ CanonicalHead.fromBytes X l o.data = .ok head

/-- A head that is there decodes, and stands on its records. -/
structure Founded (B : Backend) (s : Store) : Prop where
  tagged : s.Tagged B
  head : ∀ o, s.lookup (pathFrom l.headKey) = some o →
    ∃ head ws, CanonicalHead.fromBytes X l o.data = .ok head ∧ Complete X l s head ws

/-- Records stay, and a head that is still there goes on from its records. -/
structure Grows (s s' : Store) : Prop where
  stored : ∀ r, Stored X l s r → Stored X l s' r
  extended : ∀ head head' ws, HeadAt X l s head → HeadAt X l s' head' → Complete X l s head ws →
    ∃ ns, Complete X l s' head' (ns ++ ws)

end

variable {X : Crates} {l : KernelLineage} {B : Backend} {s s' : Store} {head head' : CanonicalHead} {r r' : CanonicalRecord}
  {ws ws' : List CanonicalRecord} {p : Option RecordPosition}

/-! ### Histories -/

theorem HeadAt.unique (h : HeadAt X l s head) (h' : HeadAt X l s head') : head = head' := by
  obtain ⟨o, ho, hd⟩ := h
  obtain ⟨o', ho', hd'⟩ := h'
  rw [ho] at ho'
  cases ho'
  rw [hd] at hd'
  exact Except.ok.inj hd'

theorem Rooted.mono (h : Rooted X l s p ws) (hs : ∀ r, Stored X l s r → Stored X l s' r) : Rooted X l s' p ws := by
  induction h with
  | nil => exact .nil
  | cons hl hr hn _ ih => exact .cons hl (hs _ hr) hn ih

theorem Complete.mono (h : Complete X l s head ws) (hs : ∀ r, Stored X l s r → Stored X l s' r) : Complete X l s' head ws :=
  ⟨h.rooted.mono hs, h.prior⟩

theorem Rooted.sequence_lt (h : Rooted X l s p ws) : ∀ r ∈ ws, r.sequence.toNat < ws.length := by
  induction h with
  | nil => exact fun _ hr => absurd hr List.not_mem_nil
  | cons _ _ hn _ ih =>
    intro r hr
    rw [List.length_cons]
    rcases List.mem_cons.1 hr with rfl | hr
    · omega
    · have := ih r hr
      omega

theorem Rooted.stored (h : Rooted X l s p ws) : ∀ r ∈ ws, r.lineage = l ∧ Stored X l s r := by
  induction h with
  | nil => exact fun _ hr => absurd hr List.not_mem_nil
  | cons hl hs _ _ ih => exact List.forall_mem_cons.2 ⟨⟨hl, hs⟩, ih⟩

/-- A digest names one stored record of the lineage. -/
theorem Stored.unique (h : Stored X l s r) (h' : Stored X l s r') (hl : r.lineage = r'.lineage)
    (hd : r.digest X = r'.digest X) : r = r' := by
  obtain ⟨o, ho, hb⟩ := h
  obtain ⟨o', ho', hb'⟩ := h'
  rw [recordPath, hd, ← recordPath, ho'] at ho
  cases ho
  have hread := CanonicalRecord.fromBytes_canonicalBytes (X := X) r
  rw [hl, hd, ← hb, hb', CanonicalRecord.fromBytes_canonicalBytes] at hread
  exact (Except.ok.inj hread).symm

theorem Rooted.length {q : RecordPosition} (h : Rooted X l s (some q) ws) : ws.length = q.generation.toNat + 1 := by
  generalize hp : some q = p at h
  cases h with
  | nil => cases hp
  | cons _ _ hn _ =>
    obtain rfl := Option.some_inj.1 hp
    rw [List.length_cons, ← hn]
    rfl

/-- A head stands on one record more than its generation. -/
theorem Complete.length (h : Complete X l s head ws) : ws.length = head.generation.toNat + 1 := h.rooted.length

/-- The head of a history decodes. -/
theorem Complete.wellFormed (h : Complete X l s head ws) : head.WellFormed := by
  obtain ⟨hr, hprior⟩ := h
  generalize hp : some head.position = p at hr
  cases hr with
  | nil => cases hp
  | @cons r ws _ _ _ _ =>
    have hvalid := r.valid
    unfold recordFieldsValid at hvalid
    have hg : head.generation = r.sequence := congrArg RecordPosition.generation (Option.some_inj.1 hp)
    rw [CanonicalHead.WellFormed, hprior, hg]
    exact (Bool.and_eq_true_iff.1 hvalid).2

/-- The walk from a position goes over its history. -/
theorem Rooted.walked {q : RecordPosition} {seen : List RecordDigest} (h : Rooted X l s (some q) ws)
    (hseen : ∀ r ∈ ws, r.digest X ∉ seen) : Walked X l q.generation.toNat q.digest seen ws := by
  generalize hp : some q = p at h
  induction h generalizing q seen with
  | nil => cases hp
  | @cons r ws hl hs hn hw ih =>
    obtain rfl := Option.some_inj.1 hp
    refine ⟨hl, hseen r (List.mem_cons_self ..), rfl, rfl, ?_⟩
    have hgen : (r.position X).generation = r.sequence := rfl
    cases hprior : r.prior with
    | none =>
      rw [hprior] at hw
      cases hw
      exact ⟨hn, rfl⟩
    | some prior =>
      have hlen := (hprior ▸ hw).length
      refine ⟨by rw [hgen, hn, hlen], ih (fun r' hr' => ?_) hprior.symm⟩
      rw [List.mem_cons, not_or]
      refine ⟨fun hd => ?_, hseen r' (List.mem_cons_of_mem _ hr')⟩
      -- two records of one digest would be one record, at two generations
      obtain ⟨hl', hs'⟩ := hw.stored r' hr'
      obtain rfl := hs'.unique hs (hl'.trans hl.symm) hd
      have := hw.sequence_lt r' hr'
      omega

/-! ### Going on from a history -/

theorem stored_inLineage (h : Stored X l s r) (hl : l.sameIdentity r.lineage = true) :
    Stored X l s (r.inLineage l) ∧ (r.inLineage l).digest X = r.digest X := by
  have hv : l.value = r.lineage.value := by simpa [KernelLineage.sameIdentity] using hl
  have hb : (r.inLineage l).canonicalBytes X = r.canonicalBytes X := by
    rw [CanonicalRecord.canonicalBytes, CanonicalRecord.canonicalBytes, CanonicalRecord.wire, CanonicalRecord.wire,
      CanonicalRecord.inLineage, hv]
  have hd : (r.inLineage l).digest X = r.digest X := by
    rw [CanonicalRecord.digest, CanonicalRecord.digest, hb]
  refine ⟨?_, hd⟩
  rwa [Stored, recordPath, hd, hb]

/-- One more record. -/
theorem Rooted.more (h : Rooted X l s p ws) (hs : Stored X l s r) (hl : l.sameIdentity r.lineage = true)
    (hn : r.sequence.toNat = ws.length) (hp : r.prior = p) : Rooted X l s (some (r.position X)) (r.inLineage l :: ws) := by
  obtain ⟨hs', hd⟩ := stored_inLineage hs hl
  have hpos : (r.inLineage l).position X = r.position X := by
    rw [CanonicalRecord.position, CanonicalRecord.position, hd]
    rfl
  rw [← hpos]
  exact .cons rfl hs' hn (hp ▸ h)

/-- The records of a batch, newest first. -/
def batchHistory (l : KernelLineage) (records : List CanonicalRecord) : List CanonicalRecord :=
  (records.map (CanonicalRecord.inLineage l)).reverse

theorem batchHistory_cons : batchHistory l (r :: records) ++ ws = batchHistory l records ++ (r.inLineage l :: ws) := by
  simp [batchHistory]

/-- The records of a batch whose check passed go on from the history before them. -/
theorem Rooted.batch {records : List CanonicalRecord} {n : UInt64} {q : RecordPosition} (h : Rooted X l s p ws)
    (hn : n.toNat = ws.length) (hok : validateRecordBatch X l records n p = .ok q) (hs : ∀ r ∈ records, Stored X l s r) :
    Rooted X l s (some q) (batchHistory l records ++ ws) := by
  induction records generalizing p ws n with
  | nil =>
    cases p with
    | none => cases hok
    | some q' =>
      cases hok
      exact h
  | cons r records ih =>
    rw [validateRecordBatch] at hok
    split at hok
    · cases hok
    next hl =>
    split at hok
    · cases hok
    next hfits =>
    rw [not_or, not_not, not_not] at hfits
    split at hok
    · cases hok
    next next hnext =>
    obtain ⟨rfl, hprior⟩ := hfits
    rw [batchHistory_cons]
    refine ih (h.more (hs r (List.mem_cons_self ..)) (ensureRecordLineage_ok.1 hl) hn hprior) ?_ hok
      fun r' hr' => hs r' (List.mem_cons_of_mem _ hr')
    rw [toNat_of_checkedSucc hnext, hn, List.length_cons]

theorem batchHistory_prior {records : List CanonicalRecord} (hne : records ≠ []) :
    (batchHistory l records ++ ws).head?.bind (·.prior) = records.getLast?.bind (·.prior) := by
  rcases List.eq_nil_or_concat records with rfl | ⟨rs, r, rfl⟩
  · exact absurd rfl hne
  · simp [batchHistory, CanonicalRecord.inLineage]

/-! ### Steps -/

/-- A request that does not publish a head. -/
def Aside (l : KernelLineage) : Req → Prop
  | .get _ => True
  | .put path _ none => pathFrom path ≠ pathFrom l.headKey
  | .put path _ (some _) => path = l.incarnationKey
  | .deleteIf path _ => path = l.headKey
  | _ => False

theorem recordPath_ne_verbatim : recordPath X l r ≠ l.headKey := by
  have hsegments : wireSegments (l.objectKey (r.digest X)) = (wireSegments l.value ++ ["objects".toList]) ++ [(r.digest X).hex] := by
    rw [l.wireSegments_objectKey, List.append_assoc, List.singleton_append]
  refine (l.headKey_ne_pathFrom hsegments fun h => ?_).symm
  have hmem : 'h' ∈ (r.digest X).hex := h ▸ by decide
  exact absurd (KernelLineage.digest_chars hmem) (by decide)

/-- A step that does not publish a head and loses no record. -/
theorem founded_of_kept (hs : Founded X l B s) (ht : s'.Tagged B)
    (hhead : ∀ o, s'.lookup (pathFrom l.headKey) = some o → s.lookup (pathFrom l.headKey) = some o)
    (hr : ∀ r o, s.lookup (recordPath X l r) = some o → s'.lookup (recordPath X l r) = some o) :
    Founded X l B s' ∧ Grows X l s s' := by
  have hstored : ∀ r, Stored X l s r → Stored X l s' r := fun r ⟨o, ho, hd⟩ => ⟨o, hr r o ho, hd⟩
  refine ⟨⟨ht, fun o ho => ?_⟩, hstored, ?_⟩
  · obtain ⟨head, ws, hd, hc⟩ := hs.head o (hhead o ho)
    exact ⟨head, ws, hd, hc.mono hstored⟩
  · rintro head head' ws hat ⟨o, ho, hd⟩ hc
    obtain rfl := hat.unique ⟨o, hhead o ho, hd⟩
    exact ⟨[], hc.mono hstored⟩

theorem aside_step {q : Req} {x : Resp q} (hq : Aside l q) (hs : Founded X l B s) (hx : B.exec s q x s') :
    Founded X l B s' ∧ Grows X l s s' := by
  have ht := Backend.exec_tagged hx hs.tagged
  have hsame : s' = s → Founded X l B s' ∧ Grows X l s s' := by
    rintro rfl
    exact founded_of_kept hs ht (fun _ ho => ho) fun _ _ ho => ho
  cases q with
  | get path => exact hsame hx.1
  | put path d c =>
    rcases Backend.put_store hx with h | ⟨ha, e, -, rfl⟩
    · exact hsame h
    cases c with
    | none =>
      have hnone := Store.accepts_none.1 ha
      refine founded_of_kept hs ht (fun o ho => by rwa [AList.lookup_insert_ne (Ne.symm hq)] at ho) fun r o ho => ?_
      rw [AList.lookup_insert_ne, ho]
      rintro heq
      rw [heq, hnone] at ho
      cases ho
    | some t =>
      obtain rfl : path = l.incarnationKey := hq
      have hapart : pathFrom l.headKey ≠ pathFrom l.incarnationKey := l.slots.control_ne_counter
      refine founded_of_kept hs ht (fun o ho => ?_) fun r o ho => ?_
      · rwa [AList.lookup_insert_ne hapart] at ho
      · rw [AList.lookup_insert_ne recordPath_ne_counter, ho]
  | deleteIf path e =>
    obtain rfl : path = l.headKey := hq
    rcases Backend.deleteIf_store hx with h | ⟨-, rfl⟩
    · exact hsame h
    refine founded_of_kept hs ht (fun o ho => ?_) fun r o ho => ?_
    · by_cases he : pathFrom l.headKey = l.headKey
      · rw [he, AList.lookup_erase] at ho
        cases ho
      · rwa [AList.lookup_erase_ne he] at ho
    · rw [AList.lookup_erase_ne recordPath_ne_verbatim, ho]
  | delete | deleteObjects | list | listSizes => exact hq.elim

/-- The records a put of `head` finds, on the condition `c`. -/
def Lawful (X : Crates) (l : KernelLineage) (s : Store) (head : CanonicalHead) : Option Etag → Prop
  | none => ∃ ws, Complete X l s head ws
  | some e => ∀ o current ws, s.lookup (pathFrom l.headKey) = some o → o.etag = e →
      CanonicalHead.fromBytes X l o.data = .ok current → Complete X l s current ws → ∃ ns, Complete X l s head (ns ++ ws)

/-- A head is published on its records. -/
theorem head_step {c : Option Etag} {x : Except StoreError (Option Etag)} (hs : Founded X l B s) (hl : head.lineage = l)
    (hlaw : Lawful X l s head c) (hx : B.exec s (.put l.headKey (head.canonicalBytes X) c) x s') :
    Founded X l B s' ∧ Grows X l s s' := by
  have ht := Backend.exec_tagged hx hs.tagged
  rcases Backend.put_store hx with rfl | ⟨ha, e, -, rfl⟩
  · exact founded_of_kept hs ht (fun _ ho => ho) fun _ _ ho => ho
  have hstored : ∀ r, Stored X l s r → Stored X l (s.insert (pathFrom l.headKey) ⟨head.canonicalBytes X, e⟩) r := by
    rintro r ⟨o, ho, hd⟩
    exact ⟨o, by rwa [AList.lookup_insert_ne recordPath_ne_head], hd⟩
  -- the records the head stands on, with those of the head it replaces
  have hgoes : (∃ ws, Complete X l s head ws) ∧ ∀ current ws, HeadAt X l s current → Complete X l s current ws →
      ∃ ns, Complete X l s head (ns ++ ws) := by
    cases c with
    | none =>
      refine ⟨hlaw, fun current ws ⟨o, ho, _⟩ _ => ?_⟩
      rw [Store.accepts_none.1 ha] at ho
      cases ho
    | some t =>
      obtain ⟨o, ho, he⟩ := Store.accepts_some.1 ha
      obtain ⟨current, ws, hd, hc⟩ := hs.head o ho
      obtain ⟨ns, hns⟩ := hlaw o current ws ho he hd hc
      refine ⟨⟨_, hns⟩, fun current' ws' ⟨o', ho', hd'⟩ hc' => ?_⟩
      cases ho.symm.trans ho'
      exact hlaw o current' ws' ho he hd' hc'
  obtain ⟨⟨ws, hc⟩, hext⟩ := hgoes
  have hread : CanonicalHead.fromBytes X l (head.canonicalBytes X) = .ok head := by
    have h := CanonicalHead.fromBytes_canonicalBytes (X := X) hc.wellFormed
    rwa [hl] at h
  refine ⟨⟨ht, fun o ho => ?_⟩, hstored, fun current head' ws' hat hat' hc' => ?_⟩
  · rw [AList.lookup_insert] at ho
    cases ho
    exact ⟨head, ws, hread, hc.mono hstored⟩
  · obtain rfl := hat'.unique ⟨_, AList.lookup_insert _, hread⟩
    obtain ⟨ns, hns⟩ := hext current ws' hat hc'
    exact ⟨ns, hns.mono hstored⟩

/-! ### Programs -/

section
variable {h h' : History LineageCall LineageCall.Res} {t : ℕ} {α : Type} {records : List CanonicalRecord} {expected : HeadRead}

/-- The invariant of the runs whose heads stand on their records. -/
abbrev Histories (X : Crates) (l : KernelLineage) (B : Backend) (h : History LineageCall LineageCall.Res) : Prop :=
  Kept B.exec (Founded X l B) (Grows X l) h

/-- A record that was there still is. -/
theorem Stored.later (hs : Stored X l h.store r) (hI : Histories X l B h') (hle : h ≤ h') : Stored X l h'.store r := by
  rw [Hist.store_eq_storeAt hle] at hs
  rw [← Hist.storeAt_now (h := h')]
  exact hI.rel (R := fun s s' => Stored X l s r → Stored X l s' r) (fun _ => id) (fun h₁ h₂ => h₂ ∘ h₁)
    (fun _ _ _ _ hg => hg.stored r) (Hist.now_le hle) le_rfl hs

theorem keeps_under {p : Prog Req Resp α} {Q : α → Prop} (hp : p.Under B.Answers (Aside l) Q) :
    Safe (lineageSystem X l B) (Histories X l B) t p (fun a _ => Q a) h := by
  induction p generalizing h with
  | ret a => exact fun _ _ => hp
  | call q k ih =>
    intro h₁ hr x s hx
    obtain ⟨hgood, hgrows⟩ := aside_step hp.1 hr.inv.state hx
    exact ⟨hr.inv.ask hx hgood hgrows, ih x (hp.2 x (Backend.answers_of_exec hr.inv.state.tagged hx))⟩
  | stop => trivial

theorem keeps_aside {p : Prog Req Resp α} {Q : α → Prop} (hp : p.Every (Aside l) Q) :
    Safe (lineageSystem X l B) (Histories X l B) t p (fun a _ => Q a) h := keeps_under hp.under

theorem aside_get (path : Str) : Aside l (.get path) := trivial

theorem aside_record (d : RecordDigest) (data : Bytes) : Aside l (.put (l.objectKey d) data none) :=
  (l.spare_objectKey d).1

/-- What is read back is there. -/
theorem keeps_readBack {reference : SafeReference} {f : Except StoreError (Bytes × Option Etag) → KernelOp Unit}
    (hf : ∀ x, f x = match x with
      | .ok (existing, _) =>
        if existing = r.canonicalBytes X ∧ RecordDigest.of X existing = RecordDigest.of X (r.canonicalBytes X) then pure ()
        else throw (.digestMismatch reference)
      | .error _ => unavailable "immutable readback after conditional create") :
    Safe (lineageSystem X l B) (Histories X l B) t (Op.ask (Req.get (l.objectKey (r.digest X))) >>= f).run
      (fun x h' => x = .ok () → Stored X l h'.store r) h := by
  rw [Op.run_ask_bind]
  intro h₁ hr x s hx
  have hx : B.exec h₁.store _ x s := hx
  obtain ⟨hgood, hgrows⟩ := aside_step (aside_get _) hr.inv.state hx
  have hI := hr.inv.ask (t := t) hx hgood hgrows
  refine ⟨hI, ?_⟩
  dsimp only
  rw [hf]
  match x, hx with
  | .error e, _ => exact fun _ _ => nofun
  | .ok (existing, e), hx =>
    dsimp only
    split
    · next hsame =>
      obtain ⟨o, ho, hd, -⟩ := Backend.get_ok hx
      have hstored : Stored X l (h₁.push (.ask t (.get (l.objectKey (r.digest X))) (.ok (existing, e))) s).store r := by
        rw [Hist.push_store, hx.1]
        exact ⟨o, ho, hd.trans hsame.1⟩
      exact fun h₂ hr₂ _ => hstored.later hr₂.inv hr₂.le
    · exact fun _ _ => nofun

theorem keeps_publishImmutable (reference : SafeReference) : Safe (lineageSystem X l B) (Histories X l B) t
    (publishImmutable X (l.objectKey (r.digest X)) (r.canonicalBytes X) reference).run
      (fun x h' => x = .ok () → Stored X l h'.store r) h := by
  rw [publishImmutable, Op.run_ask_bind]
  intro h₁ hr x s hx
  obtain ⟨hgood, hgrows⟩ := aside_step (aside_record _ _) hr.inv.state hx
  refine ⟨hr.inv.ask hx hgood hgrows, ?_⟩
  match x with
  | .ok _ => exact keeps_readBack fun _ => rfl
  | .error .preconditionFailed => exact keeps_readBack fun _ => rfl
  | .error .notFound => exact fun _ _ => nofun
  | .error .failed => exact fun _ _ => nofun

/-- A record that was published is there. -/
theorem keeps_publishRecord (hI : Histories X l B h) : Safe (lineageSystem X l B) (Histories X l B) t (publishRecord X l r).run
    (fun x h' => ∀ d, x = .ok d → d = r.digest X ∧ l.sameIdentity r.lineage = true ∧ Stored X l h'.store r) h := by
  unfold publishRecord
  cases hl : ensureRecordLineage l r with
  | error e => exact fun _ _ => nofun
  | ok u =>
    refine Safe.bindE (p := publishImmutable X _ _ _) hI ((keeps_publishImmutable _).imp ?_)
    rintro (e | u) h₁ - hI₁ hs
    · exact fun _ _ => nofun
    · rintro h₂ hr₂ d ⟨⟩
      exact ⟨rfl, ensureRecordLineage_ok.1 hl, (hs rfl).later hr₂.inv hr₂.le⟩

theorem keeps_publishRecords (hI : Histories X l B h) : Safe (lineageSystem X l B) (Histories X l B) t
    (publishRecords X l records).run (fun x h' => x = .ok () → ∀ r ∈ records, Stored X l h'.store r) h := by
  induction records generalizing h with
  | nil => exact fun _ _ _ _ hr => absurd hr List.not_mem_nil
  | cons r records ih =>
    refine Safe.bindE hI ((keeps_publishRecord hI).imp ?_)
    rintro (e | d) h₁ - hI₁ hs
    · exact fun _ _ => nofun
    refine (ih hI₁).imp ?_
    rintro x h₂ hle₂ hI₂ hrest rfl
    exact List.forall_mem_cons.2 ⟨(hs d rfl).2.2.later hI₂ hle₂, hrest rfl⟩

/-- A put of a head, and what follows it. -/
theorem keeps_putHead {c : Option Etag} {k : Except StoreError (Option Etag) → Prog Req Resp α} {Q : α → History _ _ → Prop}
    (hl : head.lineage = l) (hlaw : ∀ h₁, h ≤ h₁ → Histories X l B h₁ → Lawful X l h₁.store head c)
    (hk : ∀ h₁ x, h ≤ h₁ → Histories X l B h₁ → Safe (lineageSystem X l B) (Histories X l B) t (k x) Q h₁) :
    Safe (lineageSystem X l B) (Histories X l B) t (.call (.put l.headKey (head.canonicalBytes X) c) k) Q h := by
  intro h₁ hr x s hx
  have hx : B.exec h₁.store _ x s := hx
  obtain ⟨hgood, hgrows⟩ := head_step hr.inv.state hl (hlaw h₁ hr.le hr.inv) hx
  have hI := hr.inv.ask (t := t) hx hgood hgrows
  exact ⟨hI, hk _ x (hr.le.trans Hist.le_push) hI⟩

theorem keeps_throwConflict {x : KernelOp α} (hx : x = throwConflict X l) :
    Safe (lineageSystem X l B) (Histories X l B) t x.run (fun _ _ => True) h := by
  rw [hx]
  exact keeps_aside (every_throwConflict X aside_get fun _ => trivial)

theorem keeps_advanceHead {e : Etag} (hI : Histories X l B h) (hl : head.lineage = l)
    (hlaw : ∀ h₁, h ≤ h₁ → Histories X l B h₁ → Lawful X l h₁.store head (some e)) :
    Safe (lineageSystem X l B) (Histories X l B) t (advanceHead X l head e).run (fun _ _ => True) h := by
  have hreplace : Safe (lineageSystem X l B) (Histories X l B) t (replaceHead X l head e).run (fun _ _ => True) h := by
    rw [replaceHead, Op.run_ask_bind]
    refine keeps_putHead hl hlaw fun h₁ x _ _ => ?_
    rcases x with (_ | _ | _) | _ | _
    · exact fun _ _ => trivial
    · exact keeps_throwConflict rfl
    · exact fun _ _ => trivial
    · exact fun _ _ => trivial
    · exact fun _ _ => trivial
  refine Safe.bindE hI (hreplace.imp ?_)
  rintro (err | advanced) h₁ - hI₁ -
  · exact fun _ _ => trivial
  refine keeps_aside (Q := fun _ => True) (Prog.every_bind_trivial (Prog.every_bind_trivial
    (every_currentIncarnation aside_get) fun n => ?_) fun _ => trivial)
  split
  · trivial
  refine Op.every_ask_bind.2 ⟨rfl, ?_⟩
  rintro ((_ | _ | _) | u)
  any_goals exact every_throwConflict X aside_get fun _ => trivial
  trivial

theorem keeps_createHead {generation : UInt64} {recordDigest : RecordDigest} {prior : Option RecordPosition} {tries : ℕ}
    (hI : Histories X l B h)
    (hlaw : ∀ h₁ n, h ≤ h₁ → Histories X l B h₁ → Lawful X l h₁.store ⟨l, generation, n, recordDigest, prior⟩ none) :
    Safe (lineageSystem X l B) (Histories X l B) t (createHead X l generation recordDigest prior tries).run
      (fun _ _ => True) h := by
  induction tries generalizing h with
  | zero => exact fun _ _ => trivial
  | succ tries ih =>
    rw [createHead]
    refine Safe.bindE hI ((keeps_aside (every_currentIncarnation aside_get)).imp ?_)
    rintro (err | n) h₁ hle₁ hI₁ -
    · exact fun _ _ => trivial
    unfold Safe.AndThen
    dsimp only
    rw [uploadConditional, Op.run_ask_bind]
    refine keeps_putHead rfl (fun h₂ hle₂ => hlaw h₂ n (hle₁.trans hle₂)) fun h₂ x hle₂ hI₂ => ?_
    rcases x with (_ | _ | _) | _ | etag
    · exact fun _ _ => trivial
    · exact keeps_throwConflict rfl
    · exact fun _ _ => trivial
    · exact fun _ _ => trivial
    · refine Safe.bindE hI₂ ((keeps_aside (every_currentIncarnation aside_get)).imp ?_)
      rintro (err | m) h₃ hle₃ hI₃ -
      · exact fun _ _ => trivial
      unfold Safe.AndThen
      dsimp only
      split
      · exact fun _ _ => trivial
      rw [deleteConditional, Op.run_ask_bind]
      intro h₄ hr₄ x s hx
      have hx : B.exec h₄.store _ x s := hx
      obtain ⟨hgood, hgrows⟩ := aside_step (q := .deleteIf l.headKey etag) rfl hr₄.inv.state hx
      have hI₄ := hr₄.inv.ask (t := t) hx hgood hgrows
      have hle₄ : h ≤ h₄.push (.ask t (.deleteIf l.headKey etag) x) s :=
        (((hle₁.trans hle₂).trans hle₃).trans hr₄.le).trans Hist.le_push
      refine ⟨hI₄, ?_⟩
      rcases x with (_ | _ | _) | ⟨⟩
      · exact ih hI₄ fun h₅ n' hle₅ => hlaw h₅ n' (hle₄.trans hle₅)
      · exact keeps_throwConflict rfl
      · exact fun _ _ => trivial
      · exact ih hI₄ fun h₅ n' hle₅ => hlaw h₅ n' (hle₄.trans hle₅)

theorem keeps_appendGenesis (hI : Histories X l B h) :
    Safe (lineageSystem X l B) (Histories X l B) t (appendGenesis X l r).run (fun _ _ => True) h := by
  unfold appendGenesis
  cases hl : ensureRecordLineage l r with
  | error e => exact fun _ _ => trivial
  | ok u =>
    simp only [check, pure_bind]
    split
    · exact fun _ _ => trivial
    next hfirst =>
    rw [not_or, not_not, not_not] at hfirst
    refine Safe.bindE hI ((keeps_publishRecord hI).imp ?_)
    rintro (e | d) h₁ - hI₁ hs
    · exact fun _ _ => trivial
    obtain ⟨rfl, hid, hs⟩ := hs d rfl
    refine keeps_createHead hI₁ fun h₂ n hle₂ hI₂ => ⟨[r.inLineage l], ?_, ?_⟩
    · have hrooted := Rooted.more .nil (hs.later hI₂ hle₂) hid (by rw [hfirst.1]; rfl) hfirst.2
      rwa [CanonicalRecord.position, hfirst.1] at hrooted
    · exact hfirst.2.symm

theorem keeps_appendGenesisBatch (hI : Histories X l B h) :
    Safe (lineageSystem X l B) (Histories X l B) t (appendGenesisBatch X l records).run (fun _ _ => True) h := by
  unfold appendGenesisBatch
  cases hq : validateRecordBatch X l records 0 none with
  | error e => exact fun _ _ => trivial
  | ok q =>
    simp only [check, pure_bind]
    refine Safe.bindE hI ((keeps_publishRecords hI).imp ?_)
    rintro (e | u) h₁ - hI₁ hs
    · exact fun _ _ => trivial
    have hne : records ≠ [] := by
      rintro rfl
      cases hq
    have hcomplete : ∀ h₂ n, h₁ ≤ h₂ → Histories X l B h₂ →
        Complete X l h₂.store ⟨l, q.generation, n, q.digest, records.getLast?.bind (·.prior)⟩ (batchHistory l records ++ []) := by
      intro h₂ n hle₂ hI₂
      refine ⟨Rooted.batch .nil (n := 0) rfl hq fun r hr => (hs rfl r hr).later hI₂ hle₂, ?_⟩
      exact (batchHistory_prior hne).symm
    refine keeps_createHead hI₁ fun h₂ n hle₂ hI₂ => ⟨_, hcomplete h₂ n hle₂ hI₂⟩

/-- The current head, as `load_head` of a successor append finds it. -/
theorem under_loadExpected : (loadExpected X l expected).run.Under B.Answers (Aside l) fun x => x = .ok () →
    ∃ b current, CanonicalHead.fromBytes X l b = .ok current ∧ B.tags b expected.etag ∧
      current.sameIdentity expected.head = true := by
  refine Prog.under_bindE.2 ((under_loadHead aside_get).imp ?_)
  rintro (err | ⟨current, etag⟩) hload
  · exact nofun
  obtain ⟨b, hd, htag⟩ := hload _ rfl
  cases etag with
  | none => exact nofun
  | some e =>
    show Prog.Under _ _ _ (ExceptT.run (if _ then _ else _))
    split
    · exact nofun
    · next hsame =>
      rw [not_or, not_not, Bool.not_eq_false] at hsame
      exact fun _ => ⟨b, current, hd, hsame.2 ▸ htag e rfl, hsame.1⟩

/-- Records that go on from the expected head may take its place. -/
theorem lawful_replace {b : Bytes} {current : CanonicalHead} (hB : B.Sound) (hs : s.Tagged B)
    (hd : CanonicalHead.fromBytes X l b = .ok current) (htag : B.tags b expected.etag)
    (hgoes : ∀ ws, Complete X l s current ws → ∃ ns, Complete X l s head (ns ++ ws)) :
    Lawful X l s head (some expected.etag) := by
  intro o current' ws ho he hd' hc
  obtain rfl : o.data = b := hB _ _ _ (he ▸ hs _ o ho) htag
  cases hd.symm.trans hd'
  exact hgoes ws hc

theorem keeps_appendSuccessor (hB : B.Sound) (hI : Histories X l B h) :
    Safe (lineageSystem X l B) (Histories X l B) t (appendSuccessor X l r expected).run (fun _ _ => True) h := by
  unfold appendSuccessor
  split
  · exact fun _ _ => trivial
  cases hl : ensureRecordLineage l r with
  | error e => exact fun _ _ => trivial
  | ok u =>
  simp only [check, pure_bind]
  refine Safe.bindE hI ((keeps_aside (every_ensureOpenEra X aside_get _)).imp ?_)
  rintro (e | u) h₁ - hI₁ -
  · exact fun _ _ => trivial
  unfold Safe.AndThen
  dsimp only
  split
  · exact keeps_throwConflict rfl
  refine Safe.bindE hI₁ ((keeps_under under_loadExpected).imp ?_)
  rintro (e | u) h₂ - hI₂ hload
  · exact fun _ _ => trivial
  obtain ⟨b, current, hd, htag, hsame⟩ := hload rfl
  obtain ⟨hg, hi, hpos⟩ := sameIdentity_eq hsame
  unfold Safe.AndThen
  dsimp only
  split
  · exact fun _ _ => trivial
  next n hn =>
  split
  · exact fun _ _ => trivial
  next hfits =>
  rw [not_or, not_not, not_not] at hfits
  refine Safe.bindE hI₂ ((keeps_publishRecord hI₂).imp ?_)
  rintro (e | d) h₃ - hI₃ hs
  · exact fun _ _ => trivial
  obtain ⟨rfl, hid, hs⟩ := hs d rfl
  refine keeps_advanceHead hI₃ rfl fun h₄ hle₄ hI₄ => lawful_replace hB hI₄.state.tagged hd htag fun ws hc => ⟨[r.inLineage l], ?_⟩
  have hlen : r.sequence.toNat = ws.length := by
    rw [hc.length, hfits.1, toNat_of_checkedSucc hn, hg]
  have hrooted := hc.rooted.more (hs.later hI₄ hle₄) hid hlen (by rw [hfits.2, hpos])
  refine ⟨?_, hfits.2.symm⟩
  rwa [CanonicalRecord.position, hfits.1] at hrooted

theorem keeps_appendSuccessorBatch (hB : B.Sound) (hI : Histories X l B h)
    (hfilled : records ≠ [] ∨ expected.head.generation = 0) :
    Safe (lineageSystem X l B) (Histories X l B) t (appendSuccessorBatch X l records expected).run (fun _ _ => True) h := by
  unfold appendSuccessorBatch
  split
  · exact fun _ _ => trivial
  split
  · exact keeps_throwConflict rfl
  refine Safe.bindE hI ((keeps_aside (every_ensureOpenEra X aside_get _)).imp ?_)
  rintro (e | u) h₁ - hI₁ -
  · exact fun _ _ => trivial
  refine Safe.bindE hI₁ ((keeps_under under_loadExpected).imp ?_)
  rintro (e | u) h₂ - hI₂ hload
  · exact fun _ _ => trivial
  obtain ⟨b, current, hd, htag, hsame⟩ := hload rfl
  obtain ⟨hg, hi, hpos⟩ := sameIdentity_eq hsame
  unfold Safe.AndThen
  dsimp only
  split
  · exact fun _ _ => trivial
  next n hn =>
  cases hq : validateRecordBatch X l records n (some expected.head.position) with
  | error e => exact fun _ _ => trivial
  | ok q =>
  simp only [check, pure_bind]
  refine Safe.bindE hI₂ ((keeps_publishRecords hI₂).imp ?_)
  rintro (e | u) h₃ - hI₃ hs
  · exact fun _ _ => trivial
  refine keeps_advanceHead hI₃ rfl fun h₄ hle₄ hI₄ => lawful_replace hB hI₄.state.tagged hd htag fun ws hc =>
    ⟨batchHistory l records, ?_, ?_⟩
  · refine Rooted.batch hc.rooted ?_ (hpos ▸ hq) fun r hr => (hs rfl r hr).later hI₄ hle₄
    rw [hc.length, toNat_of_checkedSucc hn, hg]
  · by_cases hne : records = []
    · -- an empty batch names no record before: so does the first head
      subst hne
      have hfirst := hc.wellFormed
      rw [CanonicalHead.WellFormed, hg, hfilled.resolve_left (absurd rfl)] at hfirst
      show none = ws.head?.bind (·.prior)
      rw [← hc.prior]
      cases hp : current.prior with
      | none => rfl
      | some p =>
        rw [hp] at hfirst
        cases hfirst
    · exact (batchHistory_prior hne).symm

/-- The call appends something, or its empty batch goes to a first head. -/
def LineageCall.Filled : LineageCall → Prop
  | appendSuccessorBatch records expected => records ≠ [] ∨ expected.head.generation = 0
  | _ => True

theorem allowsDestroy_aside : AllowsDestroy l (Aside l) where
  get := aside_get
  tombstone _ := l.slots.control_ne_tombstone.symm
  counter d c := by
    cases c with
    | none => exact l.slots.control_ne_counter.symm
    | some e => rfl
  remove _ := rfl

theorem keeps_prog (hB : B.Sound) {c : LineageCall} (hc : c.Filled) (hI : Histories X l B h) :
    Safe (lineageSystem X l B) (Histories X l B) t (c.prog X l) (fun _ _ => True) h := by
  have haside : ∀ {α : Type} {p : KernelOp α}, p.run.Every (Aside l) (fun _ => True) →
      Safe (lineageSystem X l B) (Histories X l B) t p.run (fun _ _ => True) h := keeps_aside
  cases c with
  | appendGenesis record => exact keeps_appendGenesis hI
  | appendGenesisBatch records => exact keeps_appendGenesisBatch hI
  | appendSuccessor record expected => exact keeps_appendSuccessor hB hI
  | appendSuccessorBatch records expected => exact keeps_appendSuccessorBatch hB hI hc
  | destroy cause actor ts => exact haside (every_destroy X allowsDestroy_aside cause actor ts)
  | readHead => exact haside (every_readHead X aside_get)
  | readHeadState => exact haside (every_readHeadState X aside_get)
  | publishRecord record => exact haside ((every_publishRecord X aside_get (aside_record _ _)).imp fun _ _ => trivial)
  | publishCheckpoint checkpoint => exact haside (every_publishCheckpoint X aside_get (l.spare_checkpointKey _).1)

end

/-- Every call of the history is filled. -/
def AllFilled (h : History LineageCall LineageCall.Res) : Prop := ∀ i e c, h.At i e → e.label = .start c → c.Filled

/-- In a run of filled calls every head that is there stands on its records, and heads go on from heads. -/
theorem histories_kept {w : World Store Req Resp LineageCall LineageCall.Res} (hB : B.Sound)
    (hw : Reach (lineageSystem X l B) w) (hf : AllFilled w.hist) : Histories X l B w.hist := by
  have hgrows : ∀ s, Grows X l s s := fun s => ⟨fun _ => id, fun head head' ws hat hat' hc => ⟨[], by
    obtain rfl := hat.unique hat'
    exact hc⟩⟩
  refine (@Reach.sound_upto _ _ _ _ _ _ w w.hist (Histories X l B) (fun _ _ _ _ => True) (fun s hs => ?_)
    (fun h c hle hI _ _ => ?_) (fun h t c res hI _ => hI.done hgrows t c res) hw le_rfl).1
  · refine Kept.empty ⟨hs.1, fun o ho => ?_⟩
    have hnone : s.lookup (pathFrom l.headKey) = none := hs.2.1
    rw [hnone] at ho
    cases ho
  · have hI' := hI.start hgrows c
    have hstart : w.hist.At h.now ⟨.start c, h.store, h.store⟩ := Hist.at_mono hle (Hist.at_push.2 (.inr ⟨rfl, rfl⟩))
    exact ⟨hI', keeps_prog hB (hf _ _ c hstart rfl) hI'⟩

end YeetzS3.Lineage
