import YeetzS3.Lineage.History

/-!
# What was folded stays

In a run of filled calls a head's records are the first of every later head's of its lifetime, so that a fold of a past
generation gives what the fold gave when the head was there (`past_folds_stay`), and every head that is ever there has a whole
history (`whole_histories`).
-/

namespace YeetzS3.Lineage

open Conc

variable {X : Crates} {l : KernelLineage} {B : Backend} {h : History LineageCall LineageCall.Res} {i j : ℕ}
  {head head' : CanonicalHead} {ws : List CanonicalRecord} {v v' : (r : Req) → Resp r}

/-! ### Later heads -/

theorem HeadAt.cell {s : Store} (h : HeadAt X l s head) :
    ∃ b, (l.slots.cell s).val = some b ∧ (lifetimes X l).stamp b = head.incarnation.toNat := by
  obtain ⟨o, ho, hd⟩ := h
  refine ⟨o.data, ?_, by rw [lifetimes_stamp, stampOf_fromBytes hd]⟩
  have hobj : l.slots.object s = some o := ho
  rw [Slots.cell, hobj, Option.map_some]

theorem HeadAt.of_cell {s : Store} {b : Bytes} (hs : Founded X l B s) (hb : (l.slots.cell s).val = some b) :
    ∃ head, HeadAt X l s head ∧ head.incarnation.toNat = (lifetimes X l).stamp b := by
  obtain ⟨o, ho, rfl⟩ := Option.map_eq_some_iff.1 (show (l.slots.object s).map (·.data) = some b from hb)
  obtain ⟨head, ws, hd, -⟩ := hs.head o ho
  exact ⟨head, ⟨o, ho, hd⟩, by rw [lifetimes_stamp, stampOf_fromBytes hd]⟩

/-- While its lifetime is open, a head is followed only by heads that go on from its records. -/
theorem goes_on (hB : B.Sound) (hI : l.slots.Inv B (lifetimes X l) h) (hH : Histories X l B h) (hij : i ≤ j) (hj : j ≤ h.now)
    (hat : HeadAt X l (h.storeAt i) head) (hc : Complete X l (h.storeAt i) head ws)
    (hopen : l.slots.count (h.storeAt j) ≤ head.incarnation.toNat) : ∃ head' ns, HeadAt X l (h.storeAt j) head' ∧
      head'.incarnation = head.incarnation ∧ Complete X l (h.storeAt j) head' (ns ++ ws) := by
  induction j, hij using Nat.le_induction with
  | base => exact ⟨head, [], hat, rfl, hc⟩
  | succ k hik ih =>
    have hcount : l.slots.count (h.storeAt k) ≤ l.slots.count (h.storeAt (k + 1)) := hI.count_le hB (Nat.le_succ k) hj
    obtain ⟨head₁, ns₁, hat₁, hinc₁, hc₁⟩ := ih (Nat.le_of_succ_le hj) (hcount.trans hopen)
    have he : h.At k h.steps[k] := List.getElem?_eq_getElem hj
    obtain ⟨-, -, hgoes⟩ := hI.steps k _ he
    obtain ⟨-, hfounded, hgrows⟩ := hH.steps k _ he
    rw [← Hist.storeAt_pre he, ← Hist.storeAt_post he] at hgoes hgrows
    rw [← Hist.storeAt_post he] at hfounded
    -- one step of the cell: the head stands or is replaced, for its lifetime is open
    obtain ⟨b, hb, hstamp⟩ := hat₁.cell
    have hafter : ∃ d, (l.slots.cell (h.storeAt (k + 1))).val = some d ∧ (lifetimes X l).stamp d = (lifetimes X l).stamp b := by
      have hrun := (Lifetimes.Run.line (.single (hgoes.step hB)) hb (hopen.trans (by rw [hstamp, hinc₁])))
      obtain ⟨d, hd, hline⟩ := hrun
      refine ⟨d, hd, ?_⟩
      clear hd
      induction hline with
      | refl => rfl
      | tail _ hn ih => rw [(lifetimes X l).stamp_next hn, ih]
    obtain ⟨d, hd, hsame⟩ := hafter
    obtain ⟨head₂, hat₂, hinc₂⟩ := HeadAt.of_cell hfounded hd
    obtain ⟨ns₂, hc₂⟩ := hgrows.extended _ _ _ hat₁ hat₂ hc₁
    refine ⟨head₂, ns₂ ++ ns₁, hat₂, ?_, by rwa [List.append_assoc]⟩
    rw [← UInt64.toNat_inj, hinc₂, hsame, hstamp, hinc₁]

/-! ### Reading them -/

/-- The answers of a fold that began at step `i`: the head was read then, and the records then or later. -/
structure Reads (l : KernelLineage) (h : History LineageCall LineageCall.Res) (i : ℕ) (v : (r : Req) → Resp r) : Prop where
  head : v (.get l.headKey) = (h.storeAt i).found (pathFrom l.headKey)
  record : ∀ d, ∃ k, i ≤ k ∧ k ≤ h.now ∧ v (.get (l.objectKey d)) = (h.storeAt k).found (pathFrom (l.objectKey d))

theorem Reads.loadHead (hv : Reads l h i v) (hat : HeadAt X l (h.storeAt i) head) :
    ∃ etag, (loadHead X l).run.answer v = some (.ok (head, etag)) := by
  obtain ⟨o, ho, hd⟩ := hat
  refine ⟨some o.etag, ?_⟩
  rw [Lineage.loadHead, download, Op.run_ask_bind, Prog.answer_call, hv.head, found_some ho]
  dsimp only
  rw [hd]
  rfl

theorem Reads.loadRecord {r : CanonicalRecord} (hH : Histories X l B h) (hv : Reads l h i v)
    (hs : Stored X l (h.storeAt i) r) (hl : r.lineage = l) : (loadRecord X l (r.digest X)).run.answer v = some (.ok r) := by
  obtain ⟨k, hik, hk, hget⟩ := hv.record (r.digest X)
  obtain ⟨o, ho, hd⟩ : Stored X l (h.storeAt k) r :=
    hH.rel (R := fun s s' => Stored X l s r → Stored X l s' r) (fun _ => id) (fun h₁ h₂ => h₂ ∘ h₁)
      (fun _ _ _ _ hg => hg.stored r) hik hk hs
  rw [Lineage.loadRecord, download, Op.run_ask_bind, Prog.answer_call, hget, found_some (p := pathFrom (l.objectKey (r.digest X))) ho]
  dsimp only
  rw [hd]
  have hread := CanonicalRecord.fromBytes_canonicalBytes (X := X) r
  rw [hl] at hread
  rw [hread]
  rfl

/-- What is loaded of a head is its history. -/
theorem Reads.authoritative (hH : Histories X l B h) (hv : Reads l h i v) (hat : HeadAt X l (h.storeAt i) head)
    (hc : Complete X l (h.storeAt i) head ws) : Authoritative X l v head ws.reverse := by
  refine ⟨hv.loadHead hat, ?_⟩
  rw [loadHistory, map_eq_pure_bind]
  refine Op.answer_bind_ok.2 ⟨ws, ?_, rfl⟩
  refine ((Results.reading v).gives_walkHistory fun d r hr => (loadRecord_answer hr).choose_spec.2.1).2 ⟨?_, ?_, ?_⟩
  · exact hc.rooted.walked fun _ _ => List.not_mem_nil
  · intro r hr
    obtain ⟨hl, hs⟩ := hc.rooted.stored r hr
    exact hv.loadRecord hH hs hl
  · rintro p hp r hr
    rw [← Option.some_inj.1 hp, hc.prior, hr]
    rfl

/-- A fold at a generation the head is past. -/
theorem foldAtGeneration_answer {σ : Type} {F : LineageFold σ} {records more : List CanonicalRecord} {out : FoldOutcome σ}
    (ha : Authoritative X l v' head' (records ++ more)) (hlen : records.length = head.generation.toNat + 1)
    (hlt : records.length < 2 ^ 64) (hf : (foldRecords X l F head records none .absent).run.answer v = some (.ok out)) :
    ∃ out', (foldAtGeneration X l F head.generation).run.answer v' = some (.ok out') ∧ out'.Same out := by
  obtain ⟨hval, hfull, hrefs⟩ := foldRecords_answer_ok hf
  have hle : ¬ head.generation > head'.generation := by
    have hlen' := ha.length
    rw [List.length_append] at hlen'
    rw [gt_iff_lt, UInt64.lt_iff_toNat_lt]
    omega
  have hnext : checkedSucc head.generation = some (head.generation + 1) := if_pos (by omega)
  have htake : (records ++ more).take (head.generation + 1).toNat = records := by
    rw [toNat_of_checkedSucc hnext, ← hlen, List.take_left]
  obtain ⟨⟨etag, hhead⟩, hhist⟩ := ha
  obtain ⟨rs, r, rfl⟩ : ∃ rs r, records = rs ++ [r] := by
    rcases List.eq_nil_or_concat records with rfl | ⟨rs, r, rfl⟩
    · cases hlen
    · exact ⟨rs, r, by simp⟩
  have hlast : (rs ++ [r]).getLast? = some r := by simp
  refine ⟨⟨out.state, out.canonicalState, references X (rs ++ [r]), [], .absent⟩, Op.answer_bind_ok.2 ⟨_, hhead, ?_⟩, rfl, rfl,
    hrefs.symm⟩
  dsimp only
  rw [if_neg hle]
  refine Op.answer_bind_ok.2 ⟨_, hhist, ?_⟩
  rw [hnext]
  dsimp only
  rw [htake, hlast]
  exact foldRecords_answer hval hfull none .absent

theorem foldAtGeneration_beyond {σ : Type} {F : LineageFold σ} {g : UInt64} (hv : Reads l h i v)
    (hat : HeadAt X l (h.storeAt i) head) (hg : head.generation < g) :
    (foldAtGeneration X l F g).run.answer v = some (.error (.stateHistoryIncomplete head.reference)) := by
  obtain ⟨etag, hhead⟩ := hv.loadHead hat
  rw [foldAtGeneration, ExceptT.run_bind, Prog.answer_bind, hhead]
  change (if g > head.generation then throw (.stateHistoryIncomplete head.reference) else _ :
    KernelOp (FoldOutcome σ)).run.answer v = _
  rw [if_pos hg]
  rfl

/-! ### The laws -/

/-- A fold of a past generation of a lifetime gives what the fold gave then, and there is none of a generation to come. -/
def FoldsStay (X : Crates) (l : KernelLineage) (h : History LineageCall LineageCall.Res) : Prop :=
  ∀ {i j : ℕ} {head : CanonicalHead} {v v' : (r : Req) → Resp r}, i ≤ j → j ≤ h.now → HeadAt X l (h.storeAt i) head →
    l.slots.count (h.storeAt j) = head.incarnation.toNat → Reads l h i v → Reads l h j v' → ∀ {σ : Type} (F : LineageFold σ),
    (∀ out, (fold X l F none).run.answer v = some (.ok out) → out.records.length < 2 ^ 64 →
      ∃ out', (foldAtGeneration X l F head.generation).run.answer v' = some (.ok out') ∧ out'.Same out) ∧
    ∃ head', HeadAt X l (h.storeAt j) head' ∧ head.generation ≤ head'.generation ∧ ∀ g, head'.generation < g →
      (foldAtGeneration X l F g).run.answer v' = some (.error (.stateHistoryIncomplete head'.reference))

/-- In a run of filled calls past folds stay. -/
theorem past_folds_stay {w : World Store Req Resp LineageCall LineageCall.Res} (hB : B.Sound)
    (hw : Reach (lineageSystem X l B) w) (hf : AllFilled w.hist) : FoldsStay X l w.hist := by
  intro i j head v v' hij hj hat hopen hv hv' σ F
  have hH := histories_kept hB hw hf
  obtain ⟨ws, hc⟩ : ∃ ws, Complete X l (w.hist.storeAt i) head ws := by
    obtain ⟨o, ho, hd⟩ := id hat
    obtain ⟨head₁, ws, hd₁, hc⟩ := (hH.stateAt (hij.trans hj)).head o ho
    cases hd.symm.trans hd₁
    exact ⟨ws, hc⟩
  obtain ⟨head', ns, hat', -, hc'⟩ := goes_on hB (returned hw).1 hH hij hj hat hc hopen.le
  have ha' := hv'.authoritative hH hat' hc'
  rw [List.reverse_append] at ha'
  have hlen : ws.reverse.length = head.generation.toNat + 1 := by rw [List.length_reverse, hc.length]
  refine ⟨fun out hout hvec => ?_, head', hat', ?_, fun g hg => foldAtGeneration_beyond hv' hat' hg⟩
  · obtain ⟨head₁, records, ha, hrecords⟩ := fold_answer_ok hout
    obtain ⟨rfl, rfl⟩ := ha.unique (hv.authoritative hH hat hc)
    refine foldAtGeneration_answer ha' hlen ?_ hrecords
    rw [(foldRecords_answer_ok hrecords).2.2, references, List.length_map] at hvec
    exact hvec
  · have hlen' := hc'.length
    rw [List.length_append, hc.length] at hlen'
    rw [UInt64.le_iff_toNat_le]
    omega

/-- The head at step `i` is `bytes`, it decodes, and its walk goes over `records`, linked by their digests. -/
structure Held (X : Crates) (l : KernelLineage) (h : History LineageCall LineageCall.Res) (i : ℕ) (bytes : Bytes)
    (records : List CanonicalRecord) : Prop where
  there : ∃ o, (h.storeAt i).lookup (pathFrom l.headKey) = some o ∧ o.data = bytes
  walk : ∃ head, CanonicalHead.fromBytes X l bytes = .ok head ∧ records.length = head.generation.toNat + 1 ∧
    Walked X l head.generation.toNat head.recordDigest [] records.reverse ∧
    ∀ v, Reads l h i v → (loadHistory X l head).run.answer v = some (.ok records)

theorem held_of_complete (hH : Histories X l B h) {o : Object} (ho : (h.storeAt i).lookup (pathFrom l.headKey) = some o)
    (hd : CanonicalHead.fromBytes X l o.data = .ok head) (hc : Complete X l (h.storeAt i) head ws) :
    Held X l h i o.data ws.reverse where
  there := ⟨o, ho, rfl⟩
  walk := by
    refine ⟨head, hd, by rw [List.length_reverse, hc.length], ?_, fun v hv => (hv.authoritative hH ⟨o, ho, hd⟩ hc).2⟩
    rw [List.reverse_reverse]
    exact hc.rooted.walked fun _ _ => List.not_mem_nil

/-- Heads have whole histories, and of two acknowledged heads of one lifetime the one that landed later goes on from the other. -/
structure WholeHistories (X : Crates) (l : KernelLineage) (h : History LineageCall LineageCall.Res) : Prop where
  whole : ∀ {i}, i ≤ h.now → ∀ o, (h.storeAt i).lookup (pathFrom l.headKey) = some o → ∃ records, Held X l h i o.data records
  lines : ∀ {t t' expected expected' ℓ ℓ' d d' c c'} {head head' : HeadRead}, Acknowledged h t expected head →
    Acknowledged h t' expected' head' → l.slots.Landing h t ℓ d c → l.slots.Landing h t' ℓ' d' c' → ℓ ≤ ℓ' →
    head'.head.incarnation = head.head.incarnation → ∃ records more,
      Held X l h (ℓ + 1) (head.head.canonicalBytes X) records ∧ Held X l h (ℓ' + 1) (head'.head.canonicalBytes X) (records ++ more)

/-- What an acknowledged head left where it landed. -/
theorem landed {w : World Store Req Resp LineageCall LineageCall.Res} (hB : B.Sound) (hw : Reach (lineageSystem X l B) w)
    {t ℓ : ℕ} {d : Bytes} {c expected} {head : HeadRead} (ha : Acknowledged w.hist t expected head)
    (hl : l.slots.Landing w.hist t ℓ d c) : ℓ + 1 ≤ w.hist.now ∧
      l.slots.count (w.hist.storeAt (ℓ + 1)) = head.head.incarnation.toNat ∧
      ∃ e, (w.hist.storeAt (ℓ + 1)).lookup (pathFrom l.headKey) = some ⟨head.head.canonicalBytes X, e⟩ := by
  obtain ⟨ℓ', b, hp, hb, hr⟩ := advanced_of_acknowledged hw ha
  obtain ⟨rfl, -, -⟩ := hp.landing.unique hl
  obtain ⟨hI, -⟩ := returned hw
  obtain ⟨y, hy⟩ := hp.asked
  obtain ⟨-, e, -, hins, -⟩ := Backend.put_ok (hI.exec hy).1
  refine ⟨hy.lt, ?_, hp.object_landing hI⟩
  have hne : pathFrom l.slots.counter ≠ pathFrom l.slots.control := l.slots.control_ne_counter.symm
  rw [← hp.count_landing hr hb hI hB, hins, Slots.count, AList.lookup_insert_ne hne]
  rfl

/-- In a run of filled calls histories are whole. -/
theorem histories_whole {w : World Store Req Resp LineageCall LineageCall.Res} (hB : B.Sound)
    (hw : Reach (lineageSystem X l B) w) (hf : AllFilled w.hist) : WholeHistories X l w.hist where
  whole := by
    intro i hi o ho
    have hH := histories_kept hB hw hf
    obtain ⟨head, ws, hd, hc⟩ := (hH.stateAt hi).head o ho
    exact ⟨ws.reverse, held_of_complete hH ho hd hc⟩
  lines := by
    intro t t' expected expected' ℓ ℓ' d d' c c' head head' ha ha' hl hl' hle hinc
    have hH := histories_kept hB hw hf
    obtain ⟨hnow, -, e, ho⟩ := landed hB hw ha hl
    obtain ⟨hnow', hcount, e', ho'⟩ := landed hB hw ha' hl'
    obtain ⟨current, ws, hd, hc⟩ := (hH.stateAt hnow).head _ ho
    have hstamp : current.incarnation = head.head.incarnation := by
      rw [← stampOf_fromBytes hd, stampOf_canonicalBytes]
    obtain ⟨current', ns, hat', -, hc'⟩ := goes_on hB (returned hw).1 hH (Nat.succ_le_succ hle) hnow' ⟨_, ho, hd⟩ hc
      (by rw [hcount, hinc, hstamp])
    obtain ⟨o', ho'', hd'⟩ := hat'
    cases ho'.symm.trans ho''
    refine ⟨ws.reverse, ns.reverse, held_of_complete hH ho hd hc, ?_⟩
    rw [← List.reverse_append]
    exact held_of_complete hH ho' hd' hc'

/-! ### Concrete runs -/

/-- The answers of the bucket as it is. -/
def snapshot (s : Store) (q : Req) : Resp q := (s.serve contentTag q).1

theorem reads_snapshot (hi : i ≤ h.now) : Reads l h i (snapshot (h.storeAt i)) := ⟨rfl, fun _ => ⟨i, le_rfl, hi, rfl⟩⟩

/-- The calls of a schedule are those it starts. -/
theorem started_moves {ms : List (Move LineageCall)} {w : World Store Req Resp LineageCall LineageCall.Res} {i : ℕ} {e}
    {c : LineageCall} (he : (ms.foldl (World.move (LineageCall.prog X l) (Store.serve contentTag)) w).hist.At i e)
    (hl : e.label = .start c) : w.hist.At i e ∨ .start c ∈ ms := by
  induction ms generalizing w with
  | nil => exact .inl he
  | cons m ms ih =>
    refine (ih he).elim (fun he => ?_) fun hm => .inr (List.mem_cons_of_mem _ hm)
    cases m with
    | start c' =>
      refine (Hist.at_push.1 he).imp id ?_
      rintro ⟨-, rfl⟩
      cases hl
      exact List.mem_cons_self ..
    | step t =>
      rw [World.move] at he
      split at he
      · refine (Hist.at_push.1 he).imp id ?_
        rintro ⟨-, rfl⟩
        cases hl
      · refine (Hist.at_push.1 he).imp id ?_
        rintro ⟨-, rfl⟩
        cases hl
      · exact .inl he
      · exact .inl he

theorem letterRun_filled {ms : List (Move LineageCall)} (hms : ∀ c, .start c ∈ ms → c.Filled) :
    AllFilled (letterRun ms).hist := by
  intro i e c he hl
  refine (started_moves he hl).elim (fun h => absurd h Hist.not_at_empty) fun hm => hms c hm

/-- The second head of the one-letter lineage, as the append that wrote it returned it. -/
def letterNext : HeadRead :=
  let head : CanonicalHead := ⟨letterLineage, 1, 0, letterSuccessor.digest Serde.crates, some letterHead.head.position⟩
  ⟨head, contentTag (head.canonicalBytes Serde.crates)⟩

theorem headAt_letter {s : Store} {head : HeadRead} (hs : s.lookup (pathFrom letterLineage.headKey) =
      some ⟨head.head.canonicalBytes Serde.crates, head.etag⟩) (hl : head.head.lineage = letterLineage)
    (hw : head.head.WellFormed) : HeadAt Serde.crates letterLineage s head.head := by
  have hread := CanonicalHead.fromBytes_canonicalBytes (X := Serde.crates) hw
  rw [hl] at hread
  exact ⟨_, hs, hread⟩

theorem createThenAdvance_filled : ∀ c, .start c ∈ createThenAdvance → c.Filled := by
  intro c hc
  simp only [createThenAdvance, List.mem_append, List.mem_cons, List.mem_replicate, Move.start.injEq, reduceCtorEq, and_false,
    or_false] at hc
  rcases hc with rfl | rfl <;> trivial

/-- Past folds stay in the run of a genesis and a successor. -/
theorem past_folds_stay_createThenAdvance :
    FoldsStay Serde.crates letterLineage (letterRun createThenAdvance).hist :=
  past_folds_stay Backend.honest_sound (letterRun_reach _) (letterRun_filled createThenAdvance_filled)

/-- Two records are appended, and then none. -/
def advanceByNothing : List (Move LineageCall) :=
  .start (.appendGenesisBatch [letterGenesis, letterSuccessor]) :: List.replicate 8 (.step 0) ++
    .start (.appendSuccessorBatch [] letterNext) :: List.replicate 5 (.step 9)

set_option maxRecDepth 10000 in
theorem advanceByNothing_run : let h := (letterRun advanceByNothing).hist
    h.now = 15 ∧ ((letterRun advanceByNothing).live 9).isNone ∧
      (h.storeAt 9).lookup (pathFrom letterLineage.headKey) = some ⟨letterNext.head.canonicalBytes Serde.crates, letterNext.etag⟩ ∧
      letterLineage.slots.count (h.storeAt 15) = 0 ∧
      (fold Serde.crates letterLineage countFold none).run.answer (snapshot (h.storeAt 9)) = some (.ok nextOutcome) ∧
      ((foldAtGeneration Serde.crates letterLineage countFold 1).run.answer (snapshot (h.storeAt 15))).any (·.isOk) = false := by
  decide +kernel

/-- The empty batch is acknowledged, and what was folded before cannot be folded any more. -/
theorem nothing_folded : ¬ FoldsStay Serde.crates letterLineage (letterRun advanceByNothing).hist := by
  obtain ⟨hnow, -, hhead, hopen, hfold, hgone⟩ := advanceByNothing_run
  intro hstay
  have hat := headAt_letter hhead rfl (by decide)
  obtain ⟨out', hout, -⟩ := (hstay (by decide : 9 ≤ 15) hnow.ge hat hopen (reads_snapshot (by rw [hnow]; decide))
    (reads_snapshot hnow.ge) countFold).1 nextOutcome hfold (by decide)
  have hone : letterNext.head.generation = 1 := rfl
  rw [hone] at hout
  rw [hout] at hgone
  cases hgone

/-- Histories are whole in the run of a genesis and a successor. -/
theorem histories_whole_createThenAdvance :
    WholeHistories Serde.crates letterLineage (letterRun createThenAdvance).hist :=
  histories_whole Backend.honest_sound (letterRun_reach _) (letterRun_filled createThenAdvance_filled)

/-- A head that is acknowledged later goes on from those acknowledged before. -/
def LaterAcksExtend (X : Crates) (l : KernelLineage) (h : History LineageCall LineageCall.Res) : Prop :=
  ∀ {i i' t t' c c' res res' e e'} {head head' : HeadRead}, h.Done i t c res → c.expects = some e → c.obtains res = some head →
    h.Done i' t' c' res' → c'.expects = some e' → c'.obtains res' = some head' → i ≤ i' →
    head'.head.incarnation = head.head.incarnation →
      ∀ records, (loadHistory X l head.head).run.answer (snapshot h.store) = some (.ok records) →
        ∃ more, (loadHistory X l head'.head).run.answer (snapshot h.store) = some (.ok (records ++ more))

/-- The head an append that returns at a step was told of. -/
def ackAt (h : History LineageCall LineageCall.Res) (i : ℕ) : Option HeadRead :=
  match h.steps[i]? with
  | some ⟨.done _ c res, _, _⟩ => if c.expects.isSome then c.obtains res else none
  | _ => none

theorem done_of_ackAt {a : HeadRead} (ha : ackAt h i = some a) :
    ∃ t c res e, h.Done i t c res ∧ c.expects = some e ∧ c.obtains res = some a := by
  unfold ackAt at ha
  split at ha
  · next t c res _ _ he =>
    split at ha
    · next hs =>
      obtain ⟨e, hc⟩ := Option.isSome_iff_exists.1 hs
      exact ⟨t, c, res, e, ⟨_, he, rfl⟩, hc, ha⟩
    · cases ha
  · cases ha

/-- A genesis lands, a successor is appended to it, and then the genesis is told. -/
def toldLate : List (Move LineageCall) :=
  .start (.appendGenesis letterGenesis) :: List.replicate 4 (.step 0) ++
    .start (.appendSuccessor letterSuccessor letterHead) :: List.replicate 7 (.step 5) ++ List.replicate 2 (.step 0)

set_option maxRecDepth 10000 in
theorem toldLate_run : let h := (letterRun toldLate).hist
    ackAt h 12 = some letterNext ∧ ackAt h 14 = some letterHead ∧
      (loadHistory Serde.crates letterLineage letterNext.head).run.answer (snapshot h.store) =
        some (.ok [letterGenesis, letterSuccessor]) ∧
      (loadHistory Serde.crates letterLineage letterHead.head).run.answer (snapshot h.store) = some (.ok [letterGenesis]) := by
  decide +kernel

/-- The order in which appends are told is not the order of their heads. -/
theorem told_out_of_order : ¬ LaterAcksExtend Serde.crates letterLineage (letterRun toldLate).hist := by
  obtain ⟨hnext, hfirst, hload, hload'⟩ := toldLate_run
  obtain ⟨t, c, res, e, hd, he, ho⟩ := done_of_ackAt hnext
  obtain ⟨t', c', res', e', hd', he', ho'⟩ := done_of_ackAt hfirst
  intro hextend
  obtain ⟨more, hmore⟩ := hextend hd he ho hd' he' ho' (by decide) rfl _ hload
  rw [hload'] at hmore
  have hlen := congrArg List.length (Except.ok.inj (Option.some_inj.1 hmore))
  rw [List.length_append] at hlen
  simp only [List.length_cons, List.length_nil] at hlen
  omega

end YeetzS3.Lineage
