import YeetzS3.Keyspace.Sealed
import YeetzS3.Keyspace.Asks

/-!
# Committing what was staged

A commit that returns has put the manifest at the key and nothing else, so `get` finds the control and, at the paths its entries
name, the chunks that were staged.
-/

namespace YeetzS3.Keyspace

open Conc

/-- A request that leaves the bucket alone. -/
def Backend.Leaves (B : Backend) (r : Req) : Prop := ∀ s x s', B.exec s r x s' → s' = s

theorem allowsReads_leaves (K : AtomicKeyspace) (B : Backend) : Key.AllowsReads K (Backend.Leaves B) where
  get _ _ _ _ _ h := Backend.get_store h
  chunk _ _ _ _ _ _ _ h := Backend.get_store h
  list _ _ _ _ _ h := Backend.list_store h

section
variable {O : Outside} {K : AtomicKeyspace} {B : Backend} {key : Key K} {s t : Store} {m : ValueManifest} {fuel : ℕ}

/-- A program of reads leaves the bucket alone. -/
theorem runs_leaves {α : Type} {p : Prog Req Resp α} {a : α} (hp : p.Every (Backend.Leaves B) fun _ => True)
    (h : p.Runs B.exec s a t) : t = s :=
  (h.keep (J := (· = s)) hp (fun _ _ _ _ hJ hr hx => (hr _ _ _ hx).trans hJ) rfl).1

/-- No manifest at the key has the commit id of `m`. -/
def Fresh (O : Outside) (key : Key K) (s : Store) (commitId : Bytes) : Prop :=
  ∀ o, s.lookup (K.root ++ key.name) = some o → ∀ m, ControlEnvelope.decode O key.name o.data = .ok (.chunked m) →
    m.commitId ≠ commitId

/-- An ambiguous publication that is found to have landed is at the key. -/
theorem adjudicate_landed {etag : Option Etag}
    (h : (adjudicateManifestPut O K fuel key.name (K.root ++ key.name) m).run.Runs B.exec s (.ok (.landed etag)) t) :
    t = s ∧ ¬ Fresh O key s m.commitId := by
  refine ⟨runs_leaves (Key.every_adjudicate O (allowsReads_leaves K B) fuel key.name
    ((allowsReads_leaves K B).valid key.valid) m) h, fun hfresh => ?_⟩
  obtain ⟨retired, u, hretired, hread⟩ := Prog.runs_bindE.1 h
  obtain rfl := runs_leaves (Key.every_seqRetired (allowsReads_leaves K B) fuel key.name) hretired
  cases retired with
  | some _ => cases (Prog.runs_ret.1 hread).1
  | none =>
    rw [Op.run_ask_bind] at hread
    obtain ⟨x, u', hx, hgo⟩ := Prog.runs_call.1 hread
    cases x with
    | error e =>
      cases e <;> cases (Prog.runs_ret.1 hgo).1
    | ok found =>
      obtain ⟨data, e⟩ := found
      obtain ⟨o, ho, rfl, -⟩ := Backend.get_ok hx
      rw [key.pathFrom_control] at ho
      obtain ⟨control, u'', hdec, hgo⟩ := Prog.runs_bindE.1 hgo
      have hdec : ControlEnvelope.decode O key.name o.data = .ok control := by
        cases hd : ControlEnvelope.decode O key.name o.data with
        | error e =>
          rw [hd] at hdec
          cases (Prog.runs_ret.1 hdec).1
        | ok c =>
          rw [hd] at hdec
          exact (Prog.runs_ret.1 hdec).1.symm
      split at hgo
      · cases control with
        | inline envelope => cases (Prog.runs_ret.1 hgo).1
        | chunked observed =>
          dsimp only at hgo
          split at hgo
          · next hid => exact hfresh o ho observed hdec hid
          · cases (Prog.runs_ret.1 hgo).1
      · cases (Prog.runs_ret.1 hgo).1

/-- A put after which a manifest with the commit id is there was applied. -/
theorem put_settled {expected : Option Etag} {x : Except StoreError (Option Etag)} {u : Store} (hfresh : Fresh O key s m.commitId)
    (hx : B.exec s (.put (K.root ++ key.name) m.encode expected) x u) (hland : ¬ Fresh O key u m.commitId) :
    ∃ e, u = s.insert (K.root ++ key.name) ⟨m.encode, e⟩ := by
  rcases Backend.put_store hx with rfl | ⟨-, e, -, rfl⟩
  · exact absurd hfresh hland
  · rw [key.pathFrom_control]
    exact ⟨e, rfl⟩

/-- A create that was published has put its manifest. -/
theorem publishCreate_runs {etag : Etag} (hfresh : Fresh O key s m.commitId)
    (h : (publishCreate O K fuel key.name (K.root ++ key.name) m).run.Runs B.exec s (.ok etag) t) :
    ∃ e, t = s.insert (K.root ++ key.name) ⟨m.encode, e⟩ := by
  unfold publishCreate at h
  rw [Op.run_ask_bind] at h
  obtain ⟨x, u, hx, hgo⟩ := Prog.runs_call.1 h
  have hdoubt : ∀ {x : Except StoreError (Option Etag)} {g : Ambiguity → KeyOp Etag},
      B.exec s (.put (K.root ++ key.name) m.encode none) x u → (∀ e, g (.landed (some e)) = pure e) →
      (∃ e, g (.landed none) = throw e) → (∃ e, g .lostConflict = throw e) → (∃ e, g .ambiguous = throw e) →
      (adjudicateManifestPut O K fuel key.name (K.root ++ key.name) m >>= g).run.Runs B.exec u (.ok etag) t →
      ∃ e, t = s.insert (K.root ++ key.name) ⟨m.encode, e⟩ := by
    rintro x g hx hland ⟨e₁, hnone⟩ ⟨e₂, hlost⟩ ⟨e₃, hambiguous⟩ hgo
    obtain ⟨a, u', hadj, hret⟩ := Prog.runs_bindE.1 hgo
    cases a with
    | landed e =>
      obtain ⟨rfl, hnot⟩ := adjudicate_landed hadj
      cases e with
      | some e =>
        rw [hland] at hret
        obtain ⟨-, rfl⟩ := Prog.runs_ret.1 hret
        exact put_settled hfresh hx hnot
      | none =>
        rw [hnone] at hret
        cases (Prog.runs_ret.1 hret).1
    | lostConflict =>
      rw [hlost] at hret
      cases (Prog.runs_ret.1 hret).1
    | ambiguous =>
      rw [hambiguous] at hret
      cases (Prog.runs_ret.1 hret).1
  cases x with
  | ok e =>
    cases e with
    | some e =>
      obtain ⟨-, rfl⟩ := Prog.runs_ret.1 hgo
      obtain ⟨-, e', -, rfl, -⟩ := Backend.put_ok hx
      rw [key.pathFrom_control]
      exact ⟨e', rfl⟩
    | none => cases (Prog.runs_ret.1 hgo).1
  | error e =>
    cases e with
    | preconditionFailed => cases (Prog.runs_ret.1 hgo).1
    | notFound => exact hdoubt hx (fun _ => rfl) ⟨_, rfl⟩ ⟨_, rfl⟩ ⟨_, rfl⟩ hgo
    | failed => exact hdoubt hx (fun _ => rfl) ⟨_, rfl⟩ ⟨_, rfl⟩ ⟨_, rfl⟩ hgo

/-- A create whose lifetime is still open leaves what it put. -/
theorem evictStaleEra_fresh {incarnation : UInt64} {encoded : Bytes}
    (h : (evictStaleEra K key.name (K.root ++ key.name) incarnation encoded).run.Runs B.exec s (.ok .fresh) t) : t = s := by
  obtain ⟨n, u, hn, hgo⟩ := Prog.runs_bindE.1 h
  obtain rfl := runs_leaves (Key.every_currentIncarnation (allowsReads_leaves K B) key.name) hn
  split at hgo
  · exact (Prog.runs_ret.1 hgo).2
  · unfold evictOwn at hgo
    rw [Op.run_ask_bind] at hgo
    obtain ⟨x, u', -, hgo⟩ := Prog.runs_call.1 hgo
    rcases x with (_ | _ | _) | ⟨data, _ | e⟩
    · cases (Prog.runs_ret.1 hgo).1
    · cases (Prog.runs_ret.1 hgo).1
    · cases (Prog.runs_ret.1 hgo).1
    · cases (Prog.runs_ret.1 hgo).1
    · dsimp only at hgo
      split at hgo
      · rw [Op.run_ask_bind] at hgo
        obtain ⟨y, u'', -, hgo⟩ := Prog.runs_call.1 hgo
        rcases y with (_ | _ | _) | ⟨⟩ <;> cases (Prog.runs_ret.1 hgo).1
      · cases (Prog.runs_ret.1 hgo).1

/-- A successor whose lifetime is still open leaves what it put. -/
theorem finishValueCas_ok {incarnation : UInt64} {e etag : Etag}
    (h : (finishValueCasAfterPublish K key.name incarnation e).run.Runs B.exec s (.ok etag) t) : t = s := by
  obtain ⟨n, u, hn, hgo⟩ := Prog.runs_bindE.1 h
  obtain rfl := runs_leaves (Key.every_currentIncarnation (allowsReads_leaves K B) key.name) hn
  split at hgo
  · exact (Prog.runs_ret.1 hgo).2
  · obtain ⟨path, u', -, hgo⟩ := Prog.runs_bindE.1 hgo
    rw [Op.run_ask_bind] at hgo
    obtain ⟨y, u'', -, hgo⟩ := Prog.runs_call.1 hgo
    rcases y with (_ | _ | _) | ⟨⟩ <;> cases (Prog.runs_ret.1 hgo).1

/-- A streamed create that was committed. -/
theorem commitCreate_runs {r : CommitReceipt} (hfresh : Fresh O key s m.commitId)
    (h : (commitCreate O K fuel key.name m).run.Runs B.exec s (.ok r) t) :
    ∃ e, t = s.insert (K.root ++ key.name) ⟨m.encode, e⟩ := by
  obtain ⟨etag, u, hput, hgo⟩ := Prog.runs_bindE.1 h
  obtain ⟨e, rfl⟩ := publishCreate_runs hfresh hput
  obtain ⟨era, u', hera, hret⟩ := Prog.runs_bindE.1 hgo
  cases era with
  | fresh =>
    obtain rfl := evictStaleEra_fresh hera
    obtain ⟨-, rfl⟩ := Prog.runs_ret.1 hret
    exact ⟨e, rfl⟩
  | retry => cases (Prog.runs_ret.1 hret).1
  | conflict e => cases (Prog.runs_ret.1 hret).1

/-- A streamed compare-and-swap that was committed. -/
theorem commitCompareExchange_runs {r : CommitReceipt} {expected : Etag} (hfresh : Fresh O key s m.commitId)
    (h : (commitCompareExchange O K fuel key.name expected m).run.Runs B.exec s (.ok r) t) :
    ∃ e, t = s.insert (K.root ++ key.name) ⟨m.encode, e⟩ := by
  unfold commitCompareExchange at h
  rw [map_eq_pure_bind] at h
  obtain ⟨etag, u, hpub, hret⟩ := Prog.runs_bindE.1 h
  obtain ⟨-, rfl⟩ := Prog.runs_ret.1 hret
  obtain ⟨⟨⟩, u', hopen, hgo⟩ := Prog.runs_bindE.1 hpub
  have hleave : u' = s := by
    obtain ⟨n, u'', hn, hret⟩ := Prog.runs_bindE.1 hopen
    obtain rfl := runs_leaves (Key.every_currentIncarnation (allowsReads_leaves K B) key.name) hn
    split at hret
    · exact (Prog.runs_ret.1 hret).2
    · cases (Prog.runs_ret.1 hret).1
  subst hleave
  rw [Op.run_ask_bind] at hgo
  obtain ⟨x, u'', hx, hgo⟩ := Prog.runs_call.1 hgo
  have hdoubt : ∀ {x : Except StoreError (Option Etag)} {g : Ambiguity → KeyOp Etag},
      B.exec u' (.put (K.root ++ key.name) m.encode (some expected)) x u'' →
      (∀ e, g (.landed (some e)) = finishValueCasAfterPublish K key.name m.incarnation e) →
      (∃ e, g (.landed none) = throw e) → (g .lostConflict = casConflict O K key.name expected >>= throw) →
      (∃ e, g .ambiguous = throw e) →
      (adjudicateManifestPut O K fuel key.name (K.root ++ key.name) m >>= g).run.Runs B.exec u'' (.ok etag) t →
      ∃ e, t = u'.insert (K.root ++ key.name) ⟨m.encode, e⟩ := by
    rintro x g hx hland ⟨e₁, hnone⟩ hlost ⟨e₂, hambiguous⟩ hgo
    obtain ⟨a, w, hadj, hret⟩ := Prog.runs_bindE.1 hgo
    cases a with
    | landed e =>
      obtain ⟨rfl, hnot⟩ := adjudicate_landed hadj
      cases e with
      | some e =>
        rw [hland] at hret
        obtain rfl := finishValueCas_ok hret
        exact put_settled hfresh hx hnot
      | none =>
        rw [hnone] at hret
        cases (Prog.runs_ret.1 hret).1
    | lostConflict =>
      rw [hlost] at hret
      obtain ⟨_, _, -, hthrow⟩ := Prog.runs_bindE.1 hret
      cases (Prog.runs_ret.1 hthrow).1
    | ambiguous =>
      rw [hambiguous] at hret
      cases (Prog.runs_ret.1 hret).1
  cases x with
  | ok e =>
    cases e with
    | some e =>
      obtain rfl := finishValueCas_ok hgo
      obtain ⟨-, e', -, rfl, -⟩ := Backend.put_ok hx
      rw [key.pathFrom_control]
      exact ⟨e', rfl⟩
    | none => cases (Prog.runs_ret.1 hgo).1
  | error e =>
    cases e with
    | preconditionFailed =>
      obtain ⟨_, _, -, hthrow⟩ := Prog.runs_bindE.1 hgo
      cases (Prog.runs_ret.1 hthrow).1
    | notFound => exact hdoubt hx (fun _ => rfl) ⟨_, rfl⟩ rfl ⟨_, rfl⟩ hgo
    | failed => exact hdoubt hx (fun _ => rfl) ⟨_, rfl⟩ rfl ⟨_, rfl⟩ hgo

/-- The manifest of a staged value of so many chunks is canonical. -/
theorem Staged.canonical {g : Generation} {v commitId : Bytes} (hO : ∀ b, (O.sha256 b).length = 32) (hid : commitId.length = 16)
    (h : Staged O K g v commitId s m t) (hcount : minChunks ≤ m.entries.length ∧ m.entries.length ≤ maxChunks) :
    m.Canonical O := by
  obtain rfl := h.manifest
  have hv : v ≠ [] := by
    rintro rfl
    have hnone : minChunks ≤ 0 := hcount.1
    exact absurd hnone (by decide)
  obtain ⟨full, last, hc, hf, hl, hle, hflat⟩ := chunksOf_eq hv
  have hfull := encodedLen_map (O := O) hf
  refine manifestOf_canonical hO hid (digests_map hO _) hcount.1 hcount.2 ?_ ?_
  · rw [hc, List.map_append]
    exact .append_last hfull ⟨hl, hle⟩
  · rw [hc, List.map_append, List.map_append, List.sum_append, sum_full hfull, List.length_map, ← hflat, List.length_append,
      length_flatten_full hf]
    simp [hashEntry]

/-- A staged value whose manifest was put at its key is stored. -/
theorem Staged.stored {incarnation version : UInt64} {v commitId : Bytes} {start : Store} {e : Etag}
    (hO : ∀ b, (O.sha256 b).length = 32) (hid : commitId.length = 16)
    (h : Staged O K ⟨key.name, incarnation, version⟩ v commitId start m s)
    (hcount : minChunks ≤ m.entries.length ∧ m.entries.length ≤ maxChunks) (hfree : CollisionFree O start v) :
    Stored O K (s.insert (K.root ++ key.name) ⟨m.encode, e⟩) key.name (.chunked m) v where
  path := key.path
  found := ⟨_, AList.lookup_insert _, ControlEnvelope.decode_chunked.2 ⟨h.canonical hO hid hcount, rfl⟩⟩
  holds := h.holds hfree fun _ _ => AList.lookup_insert_ne (pathFrom_chunk_ne _ _ _ _ _ _ _)

/-- A fresh commit id is fresh after the chunks went up. -/
theorem Fresh.staged {incarnation version : UInt64} {v commitId : Bytes} (hfresh : Fresh O key s commitId)
    (h : Staged O K ⟨key.name, incarnation, version⟩ v commitId s m t) : Fresh O key t m.commitId := by
  obtain rfl := h.manifest
  intro o ho
  refine hfresh o ?_
  rcases h.grown (K.root ++ key.name) with heq | ⟨-, c, -, hpath, -⟩
  · rw [← heq, ho]
  · exact absurd hpath.symm (pathFrom_chunk_ne _ _ _ _ _ _ _)

/-- However a value is written and however its uploads go, a writer that seals has the manifest that `stage_chunks` has of the
whole value and leaves the same bytes in the bucket, and what it commits is what `get` returns. -/
theorem sealed_as_staged {incarnation version : UInt64} {v commitId : Bytes} {w : PolledWriter} {start : Store}
    (hO : ∀ b, (O.sha256 b).length = 32) (hid : commitId.length = 16) (hfresh : Fresh O key start commitId)
    (hfree : CollisionFree O start v)
    (hrun : WriteRun O K B (.fresh key.name incarnation version, start) v (w, s))
    (hseal : SealRun O K B commitId (w, s) (.ok m) t) :
    (∀ c ∈ chunksOf v, ∃ o,
      t.lookup (pathFrom (chunkObjectKey K.ns key.name incarnation version (hashEntry O c).digestHex)) = some o ∧ o.data = c) ∧
    (∀ commitId' m' t', (stageChunks O K key.name v incarnation version commitId').run.Runs B.exec start (.ok m') t' →
      m = { m' with commitId := commitId } ∧ ∀ p, (t.lookup p).map (·.data) = (t'.lookup p).map (·.data)) ∧
    ∀ fuel receipt u, (commitCreate O K fuel key.name m).run.Runs B.exec t (.ok receipt) u ∨
        (∃ expected, (commitCompareExchange O K fuel key.name expected m).run.Runs B.exec t (.ok receipt) u) →
      (Keyspace.get O K key.name).run.answer u.answers = some (.ok (some v)) := by
  obtain ⟨full, hwriting, hroom⟩ := Writing.run (g := ⟨key.name, incarnation, version⟩) hrun (writing_fresh start)
    (show 0 < chunkBytes by decide)
  obtain ⟨hstaged, hcount⟩ := Writing.seal hseal hwriting hroom rfl
  refine ⟨fun c hc => hstaged.data hfree hc, fun commitId' m' t' hstage => ?_, fun fuel receipt u hcommit => ?_⟩
  · have hstaged' := staged_of_stageChunks (g := ⟨key.name, incarnation, version⟩) hstage
    refine ⟨?_, hstaged.data_eq hstaged' hfree⟩
    rw [hstaged.manifest, hstaged'.manifest]
    rfl
  · have hput : ∃ e, u = t.insert (K.root ++ key.name) ⟨m.encode, e⟩ := by
      rcases hcommit with hc | ⟨expected, hc⟩
      · exact commitCreate_runs (hfresh.staged hstaged) hc
      · exact commitCompareExchange_runs (hfresh.staged hstaged) hc
    obtain ⟨e, rfl⟩ := hput
    exact (hstaged.stored hO hid hcount hfree).get

end

/-! ### Two chunks of zeros -/

section
variable {O : Outside} {K : AtomicKeyspace} {w : PolledWriter} {c : Bytes}

/-- A poll over one chunk, at a chunk's boundary and with room in flight. -/
theorem pollWrite_chunk (he : w.error = none) (hs : w.sealedUp = false) (hb : w.buffer = []) (hc : c.length = chunkBytes)
    (hmax : w.totalLen + chunkBytes ≤ maxLogicalBytes) (hin : w.inFlight.length + 1 < maxInFlightChunks) :
    w.pollWrite O K [] c =
      (.ready chunkBytes, { w with buffer := c, totalLen := w.totalLen + chunkBytes }.startChunkUpload O K) := by
  have hpos : 0 < chunkBytes := by decide
  have hne : c ≠ [] := fun h => by
    rw [h, List.length_nil] at hc
    omega
  have hidle : w.pollUploads (fun l => decide (maxInFlightChunks ≤ l.length)) [] = (none, w) := by
    unfold PolledWriter.pollUploads
    rw [if_pos (decide_eq_false (by omega))]
  have hdone : ∀ fuel consumed (w' : PolledWriter), w'.fill O K fuel [] consumed = (consumed, w') := fun fuel consumed w' => by
    cases fuel with
    | zero => rfl
    | succ fuel =>
      unfold PolledWriter.fill
      rw [if_pos rfl]
  have hfill : w.fill O K c.length c 0 =
      (chunkBytes, { w with buffer := c, totalLen := w.totalLen + chunkBytes }.startChunkUpload O K) := by
    obtain ⟨n, hn⟩ := Nat.exists_eq_add_of_lt (show 0 < c.length by omega)
    have htaken : min (chunkBytes - w.buffer.length) c.length = chunkBytes := by
      rw [hb, List.length_nil]
      omega
    rw [hn]
    unfold PolledWriter.fill
    rw [if_neg hne]
    dsimp only
    rw [htaken, hb, List.nil_append, List.take_of_length_le hc.le, List.drop_of_length_le hc.le, if_pos hc, if_neg, hdone,
      Nat.zero_add]
    show ¬ maxInFlightChunks ≤ (w.inFlight ++ [_]).length
    rw [List.length_append, List.length_singleton]
    omega
  unfold PolledWriter.pollWrite
  rw [he]
  dsimp only
  rw [if_neg (by rw [hs]; exact Bool.false_ne_true), if_neg hne, if_neg (by omega), hidle]
  dsimp only
  rw [hfill, he]

/-- An upload, request by request. -/
theorem putChunk_requests (path key : Str) (ordinal tries : ℕ) : ∃ k, (putChunk O path key (hashEntry O c) ordinal c (tries + 1)).run =
    .call (.put path c none) k ∧ (∀ e, k (.ok e) = .ret (.ok ())) ∧
    ∃ k', k (.error .preconditionFailed) = .call (.get path) k' ∧ ∀ e, k' (.ok (c, e)) = .ret (.ok ()) := by
  have hsame : ¬ (c.length ≠ (hashEntry O c).encodedLen ∨ O.sha256 c ≠ (hashEntry O c).sha256) := by simp [hashEntry]
  unfold putChunk
  rw [Op.run_ask_bind]
  refine ⟨_, rfl, fun _ => rfl, ?_⟩
  dsimp only
  unfold verifyChunk
  rw [Op.attempt_ask_bind, Op.run_ask_bind]
  refine ⟨_, rfl, fun e => ?_⟩
  dsimp only
  rw [if_neg hsame, Op.attempt_pure_bind]
  rfl

/-- A chunk written twice is uploaded twice: the second upload finds what the first one put. -/
theorem sealed_as_staged_zeros : ∃ w s m t,
    WriteRun plainOutside letterSpace Backend.honest (.fresh "k".toList 0 0, ∅)
      (List.replicate chunkBytes 0 ++ List.replicate chunkBytes 0) (w, s) ∧
    SealRun plainOutside letterSpace Backend.honest (List.replicate 16 0) (w, s) (.ok m) t ∧
    ∀ fuel receipt u, (commitCreate plainOutside letterSpace fuel "k".toList m).run.Runs Backend.honest.exec t (.ok receipt) u →
      (Keyspace.get plainOutside letterSpace "k".toList).run.answer u.answers =
        some (.ok (some (List.replicate chunkBytes 0 ++ List.replicate chunkBytes 0))) := by
  generalize hcs : List.replicate chunkBytes (0 : UInt8) = c
  have hc : c.length = chunkBytes := hcs ▸ List.length_replicate
  have hchunks : chunksOf (c ++ c) = [c, c] := by
    have h := @chunksOf_full [c, c] [] (by simp [hc]) (show 0 < chunkBytes by decide)
    simpa using h
  -- the two polls
  let w₀ : PolledWriter := .fresh "k".toList 0 0
  let w₁ := { w₀ with buffer := c, totalLen := w₀.totalLen + chunkBytes }.startChunkUpload plainOutside letterSpace
  let w₂ := { w₁ with buffer := c, totalLen := w₁.totalLen + chunkBytes }.startChunkUpload plainOutside letterSpace
  have h₁ : w₀.pollWrite plainOutside letterSpace [] c = (.ready chunkBytes, w₁) :=
    pollWrite_chunk rfl rfl rfl hc (by decide) (by decide)
  have h₂ : w₁.pollWrite plainOutside letterSpace [] c = (.ready chunkBytes, w₂) :=
    pollWrite_chunk rfl rfl rfl hc (show 0 + chunkBytes + chunkBytes ≤ maxLogicalBytes by decide)
      (show 1 + 1 < maxInFlightChunks by decide)
  have htake : c.take chunkBytes = c := List.take_of_length_le hc.le
  have hrun : WriteRun plainOutside letterSpace Backend.honest (w₀, ∅) (c ++ c) (w₂, ∅) := by
    have hlast : WriteRun plainOutside letterSpace Backend.honest (w₁, ∅) c (w₂, ∅) := by
      have h := WriteRun.write (O := plainOutside) (K := letterSpace) (B := Backend.honest) (s := ∅) (w := w₁) [] c .nil
      rw [h₂, List.append_nil] at h
      rwa [WritePoll.taken, htake] at h
    rw [← show (w₀.pollWrite plainOutside letterSpace [] c).2 = w₁ by rw [h₁]] at hlast
    have h := WriteRun.write [] c hlast
    rw [h₁] at h
    rwa [WritePoll.taken, htake] at h
  -- the two uploads
  let path := chunkObjectKey letterSpace.ns "k".toList 0 0 (hashEntry plainOutside c).digestHex
  obtain ⟨k₀, hk₀, hput₀, -⟩ := @putChunk_requests plainOutside c path "k".toList 0 3
  obtain ⟨k₁, hk₁, -, k', hput₁, hget⟩ := @putChunk_requests plainOutside c path "k".toList 1 3
  let t : Store := (∅ : Store).insert (pathFrom path) ⟨c, contentTag c⟩
  have hfound : t.lookup (pathFrom path) = some ⟨c, contentTag c⟩ := AList.lookup_insert _
  have hx₀ : Backend.honest.exec ∅ (.put path c none) (.ok (some (contentTag c))) t :=
    Backend.exec_honest ∅ (.put path c none)
  have hx₁ : Backend.honest.exec t (.put path c none) (.error .preconditionFailed) t := by
    refine .inr (.inl ⟨?_, rfl, rfl⟩)
    rw [Store.accepts, hfound]
    rfl
  have hx₂ : Backend.honest.exec t (.get path) (.ok (c, some (contentTag c))) t := by
    refine ⟨rfl, .inl ?_⟩
    rw [Store.found, hfound]
  let m := manifestOf plainOutside 0 0 (List.replicate 16 0) w₂.totalLen w₂.entries
  have hseal : SealRun plainOutside letterSpace Backend.honest (List.replicate 16 0) (w₂, ∅) (.ok m) t := by
    have hin : w₂.inFlight = [] ++ ⟨0, .call _ k₀⟩ :: [⟨1, .call _ k₁⟩] := by rw [← hk₀, ← hk₁]; rfl
    have hin₀ : [] ++ (⟨0, k₀ (.ok (some (contentTag c)))⟩ : Upload) :: [⟨1, .call _ k₁⟩] =
        [] ++ ⟨0, .ret (.ok ())⟩ :: [⟨1, .call _ k₁⟩] := by rw [hput₀]
    have hin₁ : [] ++ (⟨1, k' (.ok (c, some (contentTag c)))⟩ : Upload) :: [] = [] ++ ⟨1, .ret (.ok ())⟩ :: [] := by rw [hget]
    refine .upload rfl (.ask hin hx₀) (.uploaded rfl hin₀ ?_)
    refine .upload rfl (.ask (l := []) rfl hx₁) ?_
    rw [hput₁]
    refine .upload rfl (.ask (l := []) rfl hx₂) (.uploaded rfl hin₁ ?_)
    exact .drained rfl rfl (Prog.runs_ret.2 ⟨rfl, rfl⟩)
  refine ⟨w₂, ∅, m, t, hrun, hseal, fun fuel receipt u hcommit => ?_⟩
  refine (@sealed_as_staged plainOutside letterSpace Backend.honest ⟨"k".toList, rfl⟩ ∅ t m 0 0 (c ++ c) _ w₂ ∅ Sha256.digest_length
    (List.length_replicate ..) (fun _ h => by cases h) (fun d hd d' hd' _ _ => ?_) hrun hseal).2.2 fuel receipt u (.inl hcommit)
  rw [hchunks] at hd hd'
  rcases hd' with hd' | ⟨p, o, ho, -⟩
  · simp only [List.mem_cons, List.not_mem_nil, or_false, or_self] at hd hd'
    rw [hd, hd']
  · cases ho

end

end YeetzS3.Keyspace
