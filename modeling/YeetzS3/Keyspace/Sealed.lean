import YeetzS3.Keyspace.Staged

/-!
# However a value is written

The writer's polls cut what they take into full chunks and a rest, and start an upload for every full one. So a writer that seals
has staged exactly the value it took, as `stage_chunks` stages it whole: the polls, the order of the uploads and the flushes
in between do not show.
-/

namespace YeetzS3.Keyspace

open Conc

/-- The generation a writer is bound to. -/
def PolledWriter.generation (w : PolledWriter) : Generation := ⟨w.key, w.incarnation, w.version⟩

/-- The writer took `v`, of which `full` are the chunks that are full. -/
structure Writing (O : Outside) (K : AtomicKeyspace) (B : Backend) (g : Generation) (start : Store) (full : List Bytes) (v : Bytes)
    (w : PolledWriter) (s : Store) : Prop where
  generation : w.generation = g
  full_length : ∀ c ∈ full, c.length = chunkBytes
  bytes : v = full.flatten ++ w.buffer
  entries : w.entries = full.map (hashEntry O)
  total : w.totalLen = v.length
  grown : g.Grown O K start s full
  uploads : ∀ u ∈ w.inFlight, ∃ c ∈ full, g.Uploads O K B c u.rest s
  landed : w.error = none → ∀ c ∈ full, g.Landed O K s c ∨ ∃ u ∈ w.inFlight, g.Uploads O K B c u.rest s

section
variable {O : Outside} {K : AtomicKeyspace} {B : Backend} {g : Generation} {start s s' t : Store} {full : List Bytes}
  {v v' commitId : Bytes} {w w' : PolledWriter} {m : ValueManifest}

/-! ### The uploads in flight -/

/-- An upload goes on. -/
theorem Writing.upload (h : Writing O K B g start full v w s) (hu : UploadStep B (w, s) (w', s')) :
    Writing O K B g start full v w' s' ∧ w'.error = w.error ∧ w'.buffer = w.buffer := by
  generalize hc : (w, s) = c, hc' : (w', s') = c' at hu
  obtain @⟨w, s, s', l, l', ordinal, r, x, k, hin, hx⟩ := hu
  cases hc
  cases hc'
  refine ⟨?_, rfl, rfl⟩
  have hmem : (⟨ordinal, .call r k⟩ : Upload) ∈ w.inFlight := hin ▸ List.mem_append_right _ List.mem_cons_self
  obtain ⟨c, hc, hup⟩ := h.uploads _ hmem
  have hkeeps : KeepsAll s s' := Generation.keeps_of_request hup.1 hx
  -- what is left of an upload, after the step
  have hleft : ∀ u ∈ w.inFlight, ∀ c, g.Uploads O K B c u.rest s →
      ∃ u' ∈ l ++ (⟨ordinal, k x⟩ : Upload) :: l', g.Uploads O K B c u'.rest s' := by
    intro u hm c hu
    rw [hin] at hm
    rcases List.mem_append.1 hm with hm | hm
    · exact ⟨u, List.mem_append_left _ hm, hu.later hkeeps⟩
    rcases List.mem_cons.1 hm with rfl | hm
    · exact ⟨_, List.mem_append_right _ List.mem_cons_self, hu.2 s x s' (.refl s) hx⟩
    · exact ⟨u, List.mem_append_right _ (List.mem_cons_of_mem _ hm), hu.later hkeeps⟩
  refine ⟨h.generation, h.full_length, h.bytes, h.entries, h.total, h.grown.request hc hup.1 hx, fun u hm => ?_,
    fun he c hc => ?_⟩
  · have hold : ∀ u ∈ w.inFlight, ∃ c ∈ full, g.Uploads O K B c u.rest s' := fun u hm => by
      obtain ⟨c, hc, hu⟩ := h.uploads u hm
      exact ⟨c, hc, hu.later hkeeps⟩
    rcases List.mem_append.1 hm with hm | hm
    · exact hold u (hin ▸ List.mem_append_left _ hm)
    rcases List.mem_cons.1 hm with rfl | hm
    · exact ⟨c, hc, hup.2 s x s' (.refl s) hx⟩
    · exact hold u (hin ▸ List.mem_append_right _ (List.mem_cons_of_mem _ hm))
  · rcases h.landed he c hc with hl | ⟨u, hm, hu⟩
    · exact .inl (hl.later hkeeps)
    · exact .inr (hleft u hm c hu)

/-- An upload that returned well is handed out. -/
theorem Writing.uploaded {l l' : List Upload} {ordinal : ℕ} (h : Writing O K B g start full v w s)
    (hin : w.inFlight = l ++ ⟨ordinal, .ret (.ok ())⟩ :: l') :
    Writing O K B g start full v { w with inFlight := l ++ l' } s := by
  have hsub : ∀ u ∈ l ++ l', u ∈ w.inFlight := fun u hm => by
    rw [hin]
    rcases List.mem_append.1 hm with hm | hm
    · exact List.mem_append_left _ hm
    · exact List.mem_append_right _ (List.mem_cons_of_mem _ hm)
  refine ⟨h.generation, h.full_length, h.bytes, h.entries, h.total, h.grown, fun u hm => h.uploads u (hsub u hm),
    fun he c hc => ?_⟩
  rcases h.landed he c hc with hl | ⟨u, hm, hu⟩
  · exact .inl hl
  · rw [hin] at hm
    rcases List.mem_append.1 hm with hm | hm
    · exact .inr ⟨u, List.mem_append_left _ hm, hu⟩
    rcases List.mem_cons.1 hm with rfl | hm
    · exact .inl (hu rfl)
    · exact .inr ⟨u, List.mem_append_right _ hm, hu⟩

/-- A writer that has failed, with fewer uploads in flight. -/
theorem Writing.failed {l : List Upload} {e : KeyspaceError} (h : Writing O K B g start full v w s)
    (hl : ∀ u ∈ l, u ∈ w.inFlight) : Writing O K B g start full v { w with inFlight := l, error := some e } s :=
  ⟨h.generation, h.full_length, h.bytes, h.entries, h.total, h.grown, fun u hm => h.uploads u (hl u hm), nofun⟩

theorem returned_split {uploads : List Upload} {ordinal : ℕ} {r : Except KeyspaceError Unit}
    (h : PolledWriter.returned uploads ordinal = some r) :
    ∃ l l' i, uploads = l ++ ⟨i, .ret r⟩ :: l' ∧ uploads.eraseP (·.ordinal = ordinal) = l ++ l' := by
  unfold PolledWriter.returned at h
  split at h
  · next i result hfind =>
    cases h
    obtain ⟨hp, l, l', rfl, hl⟩ := List.find?_eq_some_iff_append.1 hfind
    refine ⟨l, l', i, rfl, ?_⟩
    rw [List.eraseP_append_right _ fun u hu => by simpa using hl u hu]
    exact congrArg (l ++ ·) (List.eraseP_cons_of_pos hp)
  · cases h

/-- The polls of the uploads in flight take nothing. -/
theorem Writing.pollUploads {busy : List Upload → Bool} {ready : List ℕ} (h : Writing O K B g start full v w s)
    (he : w.error = none) : Writing O K B g start full v (w.pollUploads busy ready).2 s ∧
      (w.pollUploads busy ready).2.buffer = w.buffer ∧
      ∀ p, (w.pollUploads busy ready).1 = some p → ∀ buf, p.taken buf = [] := by
  induction ready generalizing w with
  | nil =>
    unfold PolledWriter.pollUploads
    split
    · exact ⟨h, rfl, nofun⟩
    · refine ⟨h, rfl, fun p hp => ?_⟩
      cases hp
      exact fun _ => rfl
  | cons ordinal ready ih =>
    unfold PolledWriter.pollUploads
    split
    · exact ⟨h, rfl, nofun⟩
    dsimp only
    split
    · next hr =>
      obtain ⟨l, l', i, hin, herase⟩ := returned_split hr
      rw [herase]
      exact ih (h.uploaded hin) he
    · next e hr =>
      obtain ⟨l, l', i, hin, herase⟩ := returned_split hr
      refine ⟨h.failed fun u hm => List.mem_of_mem_eraseP hm, rfl, fun p hp => ?_⟩
      cases hp
      exact fun _ => rfl
    · exact ih h he

/-! ### The buffer -/

/-- The buffer is full and goes up as a chunk. -/
theorem Writing.startChunkUpload (h : Writing O K B g start full v w s) (hfull : w.buffer.length = chunkBytes) :
    Writing O K B g start (full ++ [w.buffer]) v (w.startChunkUpload O K) s := by
  obtain rfl := h.generation
  have hup : w.generation.Uploads O K B w.buffer (putChunk O (chunkObjectKey K.ns w.key w.incarnation w.version
      (hashEntry O w.buffer).digestHex) w.key (hashEntry O w.buffer) w.entries.length w.buffer 4).run s :=
    Generation.uploads_putChunk w.entries.length 4
  refine ⟨rfl, ?_, ?_, ?_, h.total, h.grown.mono (List.subset_append_left ..), fun u hm => ?_, fun he c hc => ?_⟩
  · intro c hc
    rcases List.mem_append.1 hc with hc | hc
    · exact h.full_length c hc
    · rw [List.mem_singleton.1 hc, hfull]
  · show v = (full ++ [w.buffer]).flatten ++ []
    rw [h.bytes, List.flatten_append, List.flatten_singleton, List.append_nil]
  · show w.entries ++ [hashEntry O w.buffer] = _
    rw [h.entries, List.map_append, List.map_singleton]
  · rcases List.mem_append.1 hm with hm | hm
    · obtain ⟨c, hc, hu⟩ := h.uploads u hm
      exact ⟨c, List.mem_append_left _ hc, hu⟩
    · rw [List.mem_singleton.1 hm]
      exact ⟨w.buffer, List.mem_append_right _ (List.mem_singleton_self _), hup⟩
  · rcases List.mem_append.1 hc with hc | hc
    · refine (h.landed he c hc).imp_right ?_
      rintro ⟨u, hm, hu⟩
      exact ⟨u, List.mem_append_left _ hm, hu⟩
    · rw [List.mem_singleton.1 hc]
      exact .inr ⟨_, List.mem_append_right _ (List.mem_singleton_self _), hup⟩

/-- Bytes go into the buffer. -/
theorem Writing.extend (h : Writing O K B g start full v w s) (bs : Bytes) : Writing O K B g start full (v ++ bs)
    { w with buffer := w.buffer ++ bs, totalLen := w.totalLen + bs.length } s := by
  refine ⟨h.generation, h.full_length, ?_, h.entries, ?_, h.grown, h.uploads, h.landed⟩
  · rw [h.bytes, List.append_assoc]
  · show w.totalLen + bs.length = _
    rw [h.total, List.length_append]

/-- The loop of a write: it takes a prefix of the caller's bytes. -/
theorem Writing.fill {fuel : ℕ} {buf : Bytes} {consumed : ℕ} (h : Writing O K B g start full v w s)
    (hroom : w.buffer.length < chunkBytes) : ∃ n full', (w.fill O K fuel buf consumed).1 = consumed + n ∧ n ≤ buf.length ∧
      Writing O K B g start full' (v ++ buf.take n) (w.fill O K fuel buf consumed).2 s ∧
      (w.fill O K fuel buf consumed).2.buffer.length < chunkBytes := by
  induction fuel generalizing full v w buf consumed with
  | zero => exact ⟨0, full, rfl, Nat.zero_le _, by rwa [List.take_zero, List.append_nil], hroom⟩
  | succ fuel ih =>
    unfold PolledWriter.fill
    split
    · exact ⟨0, full, rfl, Nat.zero_le _, by rwa [List.take_zero, List.append_nil], hroom⟩
    dsimp only
    set taken := min (chunkBytes - w.buffer.length) buf.length with htaken
    have hlen : (buf.take taken).length = taken := by rw [List.length_take]; omega
    have hext := h.extend (buf.take taken)
    rw [hlen] at hext
    have hsum : (w.buffer ++ buf.take taken).length = w.buffer.length + taken := by rw [List.length_append, hlen]
    -- what comes after the bytes taken now
    have hnext : ∀ {full₁ w₁}, Writing O K B g start full₁ (v ++ buf.take taken) w₁ s → w₁.buffer.length < chunkBytes →
        ∃ n full', (w₁.fill O K fuel (buf.drop taken) (consumed + taken)).1 = consumed + n ∧ n ≤ buf.length ∧
          Writing O K B g start full' (v ++ buf.take n) (w₁.fill O K fuel (buf.drop taken) (consumed + taken)).2 s ∧
          (w₁.fill O K fuel (buf.drop taken) (consumed + taken)).2.buffer.length < chunkBytes := by
      intro full₁ w₁ h₁ hroom₁
      obtain ⟨n, full', hn, hle, hw, hr⟩ := @ih full₁ _ w₁ (buf.drop taken) (consumed + taken) h₁ hroom₁
      rw [List.length_drop] at hle
      refine ⟨taken + n, full', by rw [hn, Nat.add_assoc], by omega, ?_, hr⟩
      rwa [List.append_assoc, ← List.take_add] at hw
    split
    · next hfull =>
      have hstart := hext.startChunkUpload hfull
      split
      · exact ⟨taken, _, rfl, by omega, hstart, (show 0 < chunkBytes by decide)⟩
      · exact hnext hstart (show 0 < chunkBytes by decide)
    · next hfull => exact hnext hext (by show (w.buffer ++ buf.take taken).length < chunkBytes; omega)

/-! ### Polls -/

/-- A write poll takes a prefix of its buffer. -/
theorem Writing.pollWrite {ready : List ℕ} {buf : Bytes} (h : Writing O K B g start full v w s)
    (hroom : w.buffer.length < chunkBytes) : ∃ full',
      Writing O K B g start full' (v ++ (w.pollWrite O K ready buf).1.taken buf) (w.pollWrite O K ready buf).2 s ∧
      (w.pollWrite O K ready buf).2.buffer.length < chunkBytes := by
  unfold PolledWriter.pollWrite
  split
  · exact ⟨full, by rwa [WritePoll.taken, List.append_nil], hroom⟩
  next he =>
  split
  · exact ⟨full, by rwa [WritePoll.taken, List.append_nil], hroom⟩
  split
  · exact ⟨full, by rwa [WritePoll.taken, List.take_zero, List.append_nil], hroom⟩
  split
  · refine ⟨full, ?_, hroom⟩
    rw [WritePoll.taken, List.append_nil]
    exact @Writing.failed _ _ _ _ _ _ _ _ _ w.inFlight _ h fun _ => id
  obtain ⟨hw, hbuf, htaken⟩ := @Writing.pollUploads _ _ _ _ _ _ _ _ _ (fun l => decide (maxInFlightChunks ≤ l.length)) ready h he
  split
  · next p w' hp =>
    rw [hp] at hw hbuf htaken
    refine ⟨full, ?_, by rwa [hbuf]⟩
    rwa [htaken p rfl buf, List.append_nil]
  · next w' hp =>
    rw [hp] at hw hbuf
    obtain ⟨n, full', hn, -, hfill, hroom'⟩ := @Writing.fill _ _ _ _ _ _ _ _ _ buf.length buf 0 hw (by rwa [hbuf])
    refine ⟨full', ?_, hroom'⟩
    dsimp only
    rw [WritePoll.taken, hn, Nat.zero_add]
    exact hfill

/-- A flush takes nothing. -/
theorem Writing.pollFlush {ready : List ℕ} (h : Writing O K B g start full v w s) :
    Writing O K B g start full v (w.pollFlush ready).2 s ∧ (w.pollFlush ready).2.buffer = w.buffer := by
  unfold PolledWriter.pollFlush
  split
  · exact ⟨h, rfl⟩
  next he =>
  obtain ⟨hw, hbuf, -⟩ := @Writing.pollUploads _ _ _ _ _ _ _ _ _ (fun l => !l.isEmpty) ready h he
  split
  · next p w' hp =>
    rw [hp] at hw hbuf
    exact ⟨hw, hbuf⟩
  · next w' hp =>
    rw [hp] at hw hbuf
    exact ⟨hw, hbuf⟩

/-- However it is polled, a writer cuts what it takes into chunks. -/
theorem Writing.run {c c' : PolledWriter × Store} (hr : WriteRun O K B c v' c') (h : Writing O K B g start full v c.1 c.2)
    (hroom : c.1.buffer.length < chunkBytes) : ∃ full',
      Writing O K B g start full' (v ++ v') c'.1 c'.2 ∧ c'.1.buffer.length < chunkBytes := by
  induction hr generalizing full v with
  | nil => exact ⟨full, by rwa [List.append_nil], hroom⟩
  | upload hu _ ih =>
    obtain ⟨h', -, hbuf⟩ := h.upload hu
    exact ih h' (by rwa [hbuf])
  | write ready buf _ ih =>
    obtain ⟨full', h', hroom'⟩ := h.pollWrite hroom
    obtain ⟨full'', h'', hroom''⟩ := ih h' hroom'
    exact ⟨full'', by rwa [← List.append_assoc], hroom''⟩
  | flush ready _ ih =>
    obtain ⟨h', hbuf⟩ := h.pollFlush
    exact ih h' (by rwa [hbuf])

/-- A writer that begins took nothing. -/
theorem writing_fresh (s : Store) : Writing O K B g s [] [] (.fresh g.key g.incarnation g.version) s :=
  ⟨rfl, nofun, rfl, rfl, rfl, .refl _ _, nofun, nofun⟩

/-! ### Cutting -/

/-- There is one way to cut bytes into full chunks and a last one. -/
theorem cut_unique {full full' : List Bytes} {last last' : Bytes} {n : ℕ} (hf : ∀ c ∈ full, c.length = n)
    (hf' : ∀ c ∈ full', c.length = n) (hl : 1 ≤ last.length ∧ last.length ≤ n) (hl' : 1 ≤ last'.length ∧ last'.length ≤ n)
    (h : full.flatten ++ last = full'.flatten ++ last') : full = full' ∧ last = last' := by
  induction full generalizing full' with
  | nil =>
    cases full' with
    | nil => exact ⟨rfl, h⟩
    | cons c full' =>
      have hlen := congrArg List.length h
      have hc := hf' c List.mem_cons_self
      simp only [List.flatten_nil, List.nil_append, List.flatten_cons, List.length_append] at hlen
      omega
  | cons c full ih =>
    have hc := hf c List.mem_cons_self
    cases full' with
    | nil =>
      have hlen := congrArg List.length h
      simp only [List.flatten_nil, List.nil_append, List.flatten_cons, List.length_append] at hlen
      omega
    | cons c' full' =>
      have hc' := hf' c' List.mem_cons_self
      rw [List.flatten_cons, List.flatten_cons, List.append_assoc, List.append_assoc] at h
      obtain ⟨rfl, hrest⟩ := List.append_inj h (hc.trans hc'.symm)
      obtain ⟨rfl, rfl⟩ := ih (fun c hm => hf c (List.mem_cons_of_mem _ hm))
        (fun c hm => hf' c (List.mem_cons_of_mem _ hm)) hrest
      exact ⟨rfl, rfl⟩

/-- The chunks of full chunks and a rest: a rest that is empty is none. -/
theorem chunksOf_full {full : List Bytes} {rest : Bytes} (hf : ∀ c ∈ full, c.length = chunkBytes)
    (hr : rest.length < chunkBytes) : chunksOf (full.flatten ++ rest) = full ++ if rest = [] then [] else [rest] := by
  have hpos : 0 < chunkBytes := by decide
  -- cut off the last chunk, and compare with what `chunksOf` cuts off
  have hcut : ∀ {init : List Bytes} {last : Bytes}, (∀ c ∈ init, c.length = chunkBytes) → 1 ≤ last.length →
      last.length ≤ chunkBytes → chunksOf (init.flatten ++ last) = init ++ [last] := by
    intro init last hi hl hle
    have hne : init.flatten ++ last ≠ [] := fun h => by
      rw [(List.append_eq_nil_iff.1 h).2] at hl
      exact absurd hl (by decide)
    obtain ⟨full', last', hc, hf', hl', hle', hflat⟩ := chunksOf_eq hne
    obtain ⟨rfl, rfl⟩ := cut_unique hf' hi ⟨hl', hle'⟩ ⟨hl, hle⟩ hflat
    exact hc
  split
  · next hnil =>
    rw [hnil, List.append_nil, List.append_nil]
    rcases List.eq_nil_or_concat full with rfl | ⟨init, last, rfl⟩
    · rfl
    · rw [List.concat_eq_append] at hf ⊢
      have hlast : last.length = chunkBytes := hf last (List.mem_append_right _ (List.mem_singleton_self _))
      rw [List.flatten_append, List.flatten_singleton]
      exact hcut (fun c hc => hf c (List.mem_append_left _ hc)) (by omega) hlast.le
  · next hne => exact hcut hf (List.length_pos_iff.2 hne) hr.le

/-! ### Seal -/

/-- What a writer's tail comes to, its uploads being through. -/
theorem Writing.seal_tail (h : Writing O K B g start full v w s) (hroom : w.buffer.length < chunkBytes) (he : w.error = none)
    (hin : w.inFlight = []) (hr : (sealValue O K w.key w.toValueWriter commitId).run.Runs B.exec s (.ok m) t) :
    Staged O K g v commitId start m t ∧ minChunks ≤ m.entries.length ∧ m.entries.length ≤ maxChunks := by
  obtain rfl := h.generation
  have hchunks : chunksOf v = full ++ if w.buffer = [] then [] else [w.buffer] := h.bytes ▸ chunksOf_full h.full_length hroom
  have hlanded : ∀ c ∈ full, w.generation.Landed O K s c := fun c hc => by
    rcases h.landed he c hc with hl | ⟨u, hu, -⟩
    · exact hl
    · rw [hin] at hu
      cases hu
  obtain ⟨entries, u, hentries, hret⟩ := Prog.runs_bindE.1 hr
  have htail : entries = (chunksOf v).map (hashEntry O) ∧ w.generation.Grown O K start u (chunksOf v) ∧
      ∀ c ∈ chunksOf v, w.generation.Landed O K u c := by
    unfold sealEntries at hentries
    split at hentries
    · next hnil =>
      obtain ⟨hret', rfl⟩ := Prog.runs_ret.1 hentries
      rw [if_pos hnil, List.append_nil] at hchunks
      rw [hchunks, Except.ok.inj hret', ← h.entries]
      exact ⟨rfl, h.grown, hlanded⟩
    · next hne =>
      obtain ⟨⟨⟩, u', hput, hret'⟩ := Prog.runs_bindE.1 hentries
      obtain ⟨hentries, rfl⟩ := Prog.runs_ret.1 hret'
      rw [if_neg hne] at hchunks
      have hgrow : w.generation.Grown O K start s (chunksOf v) := h.grown.mono (hchunks ▸ List.subset_append_left ..)
      obtain ⟨hgrown, hkeeps, hland⟩ := Generation.runs_putChunks hgrow (hchunks ▸ List.subset_append_right ..) hput
      refine ⟨?_, hgrown, fun c hc => ?_⟩
      · rw [Except.ok.inj hentries, h.entries, hchunks, List.map_append, List.map_singleton]
      · rw [hchunks] at hc
        rcases List.mem_append.1 hc with hc | hc
        · exact (hlanded c hc).later hkeeps
        · exact hland c hc
  obtain ⟨rfl, hgrown, hland⟩ := htail
  split at hret
  · next hcount =>
    obtain ⟨hm, rfl⟩ := Prog.runs_ret.1 hret
    obtain rfl := Except.ok.inj hm
    refine ⟨⟨?_, hgrown, hland⟩, hcount⟩
    show manifestOf O w.incarnation w.version commitId w.totalLen _ = _
    rw [h.total]
    rfl
  · cases (Prog.runs_ret.1 hret).1

/-- A writer that seals has staged what it took. -/
theorem Writing.seal {c : PolledWriter × Store} {r : Except KeyspaceError ValueManifest}
    (hr : SealRun O K B commitId c r t) (h : Writing O K B g start full v c.1 c.2)
    (hroom : c.1.buffer.length < chunkBytes) (hm : r = .ok m) :
    Staged O K g v commitId start m t ∧ minChunks ≤ m.entries.length ∧ m.entries.length ≤ maxChunks := by
  induction hr with
  | failed he => cases hm
  | upload he hu _ ih =>
    obtain ⟨h', -, hbuf⟩ := h.upload hu
    exact ih h' (by rwa [hbuf]) hm
  | uploaded he hin _ ih => exact ih (h.uploaded hin) hroom hm
  | uploadFailed he hin => cases hm
  | drained he hin hrun =>
    subst hm
    exact h.seal_tail hroom he hin hrun

end

end YeetzS3.Keyspace
