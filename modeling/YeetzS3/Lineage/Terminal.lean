import YeetzS3.Lineage.Past

/-!
# Terminal reads

`read_terminal_record` gets the head and the record it names, and walks no history. What it returns is the end of every fold of
the head, at whatever steps of a run its two requests are served.
-/

namespace YeetzS3.Lineage

open Conc

/-- `TerminalRecordRead`. -/
structure TerminalRecordRead where
  head : HeadRead
  record : CanonicalRecord
deriving DecidableEq

section
variable (X : Crates) (l : KernelLineage)

/-- `read_terminal_record`. -/
def readTerminalRecord : KernelOp TerminalRecordRead := do
  let loaded ← loadHead X l
  let etag ← needEtag "terminal read did not return a head ETag" loaded.2
  let record ← loadRecord X l loaded.1.recordDigest
  if record.digest X ≠ loaded.1.recordDigest then throw (.digestMismatch (.forDigest l (record.digest X)))
  else pure ⟨⟨loaded.1, etag⟩, record⟩

end

variable {X : Crates} {l : KernelLineage} {B : Backend} {h : History LineageCall LineageCall.Res} {i j : ℕ}
  {head : CanonicalHead} {records : List CanonicalRecord} {r : CanonicalRecord} {etag : Etag} {v v' : (r : Req) → Resp r}

/-- A terminal read returns the head and the record it loaded. -/
theorem readTerminalRecord_answer {read : TerminalRecordRead} :
    (readTerminalRecord X l).run.answer v = some (.ok read) ↔
      (loadHead X l).run.answer v = some (.ok (read.head.head, some read.head.etag)) ∧
        (loadRecord X l read.head.head.recordDigest).run.answer v = some (.ok read.record) := by
  constructor
  · intro h
    obtain ⟨⟨head, etag⟩, hhead, h⟩ := Op.answer_bind_ok.1 h
    obtain ⟨etag', hetag, h⟩ := Op.answer_bind_ok.1 h
    obtain ⟨record, hrecord, h⟩ := Op.answer_bind_ok.1 h
    rcases etag with _ | etag
    · cases hetag
    cases hetag
    split at h
    · cases h
    · cases h
      exact ⟨hhead, hrecord⟩
  · rintro ⟨hhead, hrecord⟩
    obtain ⟨-, -, -, hd⟩ := loadRecord_answer hrecord
    refine Op.answer_bind_ok.2 ⟨_, hhead, Op.answer_bind_ok.2 ⟨_, rfl, Op.answer_bind_ok.2 ⟨_, hrecord, ?_⟩⟩⟩
    rw [if_neg (not_not.2 hd)]
    rfl

/-- The record a head names is the last of its history. -/
theorem Authoritative.terminal (h : Authoritative X l v head records) :
    ∃ r, records.getLast? = some r ∧ (loadRecord X l head.recordDigest).run.answer v = some (.ok r) := by
  obtain ⟨hw, hstored⟩ := h.walked
  cases hws : records.reverse with
  | nil =>
    rw [hws] at hw
    exact hw.elim
  | cons r ws =>
    rw [hws] at hw
    have hmem : r ∈ records := List.mem_reverse.1 (hws ▸ List.mem_cons_self)
    refine ⟨r, by rw [← List.head?_reverse, hws, List.head?_cons], ?_⟩
    obtain ⟨hl, -, hd, -⟩ := hw
    obtain ⟨e, he⟩ := hstored r hmem
    have hread := CanonicalRecord.fromBytes_canonicalBytes (X := X) r
    rw [hl] at hread
    rw [← hd, loadRecord, download, Op.run_ask_bind, Prog.answer_call, he]
    dsimp only
    rw [hread]
    rfl

/-- A terminal read says what a fold of the same answers ends in, and succeeds where there is a fold and a tag. -/
theorem Authoritative.terminal_iff (h : Authoritative X l v head records) {read : TerminalRecordRead} :
    (readTerminalRecord X l).run.answer v = some (.ok read) ↔ read.head.head = head ∧
      (loadHead X l).run.answer v = some (.ok (head, some read.head.etag)) ∧ records.getLast? = some read.record := by
  obtain ⟨r, hlast, hload⟩ := h.terminal
  obtain ⟨e, hhead⟩ := h.1
  rw [readTerminalRecord_answer]
  constructor
  · rintro ⟨hhead', hrecord⟩
    rw [hhead] at hhead'
    cases hhead'
    rw [hload] at hrecord
    cases hrecord
    exact ⟨rfl, hhead, hlast⟩
  · rintro ⟨hsame, hhead', hlast'⟩
    rw [hsame]
    rw [hlast] at hlast'
    cases hlast'
    exact ⟨hhead', hload⟩

/-! ### Over a run -/

/-- Where there is no head a terminal read finds none. -/
theorem Reads.headless (hv : Reads l h i v) (hnone : (h.storeAt i).lookup (pathFrom l.headKey) = none) :
    (readTerminalRecord X l).run.answer v = some (.error (.stateHistoryIncomplete (.forLineage l))) := by
  rw [readTerminalRecord, Lineage.loadHead, download, bind_assoc, Op.run_ask_bind, Prog.answer_call, hv.head, found_none hnone]
  rfl

/-- The two requests of a terminal read, served at step `i` and then or later, are answered with `read`. Every fold of what is
there at step `i` ends in that record, and every later fold while the lifetime is open goes over it. -/
structure Terminal (X : Crates) (l : KernelLineage) (h : History LineageCall LineageCall.Res) (i : ℕ)
    (v : (r : Req) → Resp r) (read : TerminalRecordRead) : Prop where
  answer : (readTerminalRecord X l).run.answer v = some (.ok read)
  there : ∃ bytes, (h.storeAt i).lookup (pathFrom l.headKey) = some ⟨bytes, read.head.etag⟩ ∧
    CanonicalHead.fromBytes X l bytes = .ok read.head.head
  folded : ∀ v', Reads l h i v' → ∃ records, Authoritative X l v' read.head.head records ∧ records.getLast? = some read.record
  stays : ∀ {j v'}, i ≤ j → j ≤ h.now → l.slots.count (h.storeAt j) = read.head.head.incarnation.toNat → Reads l h j v' →
    ∃ head records, Authoritative X l v' head records ∧ records[read.head.head.generation.toNat]? = some read.record

/-- Every terminal read finds no head, or the end of its history. -/
def TerminalsTrue (X : Crates) (l : KernelLineage) (h : History LineageCall LineageCall.Res) : Prop :=
  ∀ {i v}, i ≤ h.now → Reads l h i v →
    ((h.storeAt i).lookup (pathFrom l.headKey) = none ∧
      (readTerminalRecord X l).run.answer v = some (.error (.stateHistoryIncomplete (.forLineage l)))) ∨
    ∃ read, Terminal X l h i v read

/-- In a run of filled calls terminal reads are true. -/
theorem terminals_true {w : World Store Req Resp LineageCall LineageCall.Res} (hB : B.Sound)
    (hw : Reach (lineageSystem X l B) w) (hf : AllFilled w.hist) : TerminalsTrue X l w.hist := by
  intro i v hi hv
  have hH := histories_kept hB hw hf
  cases ho : (w.hist.storeAt i).lookup (pathFrom l.headKey) with
  | none => exact .inl ⟨rfl, hv.headless ho⟩
  | some o =>
    obtain ⟨head, ws, hd, hc⟩ := (hH.stateAt hi).head o ho
    have hat : HeadAt X l (w.hist.storeAt i) head := ⟨o, ho, hd⟩
    have ha := hv.authoritative hH hat hc
    obtain ⟨r, hlast, -⟩ := ha.terminal
    refine .inr ⟨⟨⟨head, o.etag⟩, r⟩, ha.terminal_iff.2 ⟨rfl, ?_, hlast⟩, ?_, fun v' hv' => ?_, fun {j v'} hij hj hopen hv' => ?_⟩
    · rw [loadHead, download, Op.run_ask_bind, Prog.answer_call, hv.head, found_some ho]
      dsimp only
      rw [hd]
      rfl
    · exact ⟨o.data, ho, hd⟩
    · exact ⟨_, hv'.authoritative hH hat hc, hlast⟩
    · obtain ⟨head', ns, hat', -, hc'⟩ := goes_on hB (returned hw).1 hH hij hj hat hc hopen.le
      refine ⟨head', _, hv'.authoritative hH hat' hc', ?_⟩
      have hlen : ws.reverse.length = head.generation.toNat + 1 := by rw [List.length_reverse, hc.length]
      rw [List.reverse_append, List.getElem?_append_left (by dsimp only; omega)]
      rw [List.getLast?_eq_getElem?, hlen] at hlast
      exact hlast

theorem destroyThenCreate_filled : ∀ c, .start c ∈ destroyThenCreate → c.Filled := by
  intro c hc
  simp only [destroyThenCreate, List.mem_append, List.mem_cons, List.mem_replicate, Move.start.injEq, reduceCtorEq, and_false,
    or_false] at hc
  rcases hc with (((rfl | rfl) | rfl) | rfl) | rfl <;> trivial

/-- In the run of a genesis, a destroy and a genesis a terminal read finds the first head while it is there, and none behind the
destroy. -/
theorem terminals_true_destroyThenCreate : TerminalsTrue Serde.crates letterLineage (letterRun destroyThenCreate).hist ∧
    (letterLineage.slots.object ((letterRun destroyThenCreate).hist.storeAt 7)).isSome ∧
    letterLineage.slots.object ((letterRun destroyThenCreate).hist.storeAt 14) = none :=
  ⟨terminals_true Backend.honest_sound (letterRun_reach _) (letterRun_filled destroyThenCreate_filled),
    destroyThenCreate_read.2.1, destroyThenCreate_read.2.2⟩

end YeetzS3.Lineage
