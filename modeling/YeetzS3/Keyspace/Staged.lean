import YeetzS3.Keyspace.Writer
import YeetzS3.Keyspace.Delivered

/-!
# Chunks in the bucket

What the uploads of a value's chunks at one generation leave in the bucket: nothing that was there changes, and every chunk
whose upload returned is at its path. That is all the order of the uploads decides about.
-/

namespace YeetzS3.Keyspace

open Conc

/-- Everything stays. -/
def KeepsAll (s t : Store) : Prop := ∀ p o, s.lookup p = some o → t.lookup p = some o

theorem KeepsAll.refl (s : Store) : KeepsAll s s := fun _ _ => id

theorem KeepsAll.trans {s t u : Store} (h : KeepsAll s t) (h' : KeepsAll t u) : KeepsAll s u :=
  fun p o ho => h' p o (h p o ho)

/-- The key and the lifetime and version a value's chunks are written for. -/
structure Generation where
  key : Str
  incarnation : UInt64
  version : UInt64

namespace Generation

variable (O : Outside) (K : AtomicKeyspace) (g : Generation)

/-- The object key of a chunk. -/
def chunkKey (c : Bytes) : Str := chunkObjectKey K.ns g.key g.incarnation g.version (hashEntry O c).digestHex

/-- What is at the chunk's path has its length and its digest. -/
def Landed (s : Store) (c : Bytes) : Prop :=
  ∃ o, s.lookup (pathFrom (g.chunkKey O K c)) = some o ∧ o.data.length = c.length ∧ O.sha256 o.data = O.sha256 c

/-- The bucket has what it had, and besides at most some of the chunks. -/
def Grown (s t : Store) (chunks : List Bytes) : Prop :=
  ∀ p, t.lookup p = s.lookup p ∨
    s.lookup p = none ∧ ∃ c ∈ chunks, p = pathFrom (g.chunkKey O K c) ∧ ∃ e, t.lookup p = some ⟨c, e⟩

/-- What the upload of a chunk asks. -/
def Requests (c : Bytes) (r : Req) : Prop := r = .put (g.chunkKey O K c) c none ∨ r = .get (g.chunkKey O K c)

/-- What is left of the upload of a chunk: if it returns well, the chunk has landed. -/
def Uploads (B : Backend) (c : Bytes) (p : Prog Req Resp (Except KeyspaceError Unit)) (s : Store) : Prop :=
  p.Among B.exec KeepsAll (g.Requests O K c) (fun r t => r = .ok () → g.Landed O K t c) s

variable {O K g} {s s' t : Store} {B : Backend} {c : Bytes} {chunks chunks' : List Bytes}

theorem Landed.later (h : g.Landed O K s c) (hk : KeepsAll s t) : g.Landed O K t c := by
  obtain ⟨o, ho, hd⟩ := h
  exact ⟨o, hk _ _ ho, hd⟩

theorem Uploads.later {p : Prog Req Resp (Except KeyspaceError Unit)} (h : g.Uploads O K B c p s) (hk : KeepsAll s t) :
    g.Uploads O K B c p t :=
  Prog.Among.later (fun _ _ _ => KeepsAll.trans) (fun _ _ _ hle hQ hr => (hQ hr).later hle) h hk

theorem Grown.refl (s : Store) (chunks : List Bytes) : g.Grown O K s s chunks := fun _ => .inl rfl

theorem Grown.mono (h : g.Grown O K s t chunks) (hs : chunks ⊆ chunks') : g.Grown O K s t chunks' := fun p =>
  (h p).imp_right fun ⟨hn, c, hc, hp⟩ => ⟨hn, c, hs hc, hp⟩

/-- A request of an upload leaves everything where it is, and puts at most its chunk. -/
theorem keeps_of_request {r : Req} {x : Resp r} (hr : g.Requests O K c r) (hx : B.exec s r x s') : KeepsAll s s' := by
  rcases hr with rfl | rfl
  · rcases Backend.put_store hx with rfl | ⟨ha, e, -, rfl⟩
    · exact .refl _
    · intro p o ho
      rw [AList.lookup_insert_ne]
      · exact ho
      · rintro rfl
        rw [Store.accepts_none.1 ha] at ho
        cases ho
  · rw [Backend.get_store hx]
    exact .refl _

theorem Grown.request {r : Req} {x : Resp r} (h : g.Grown O K s t chunks) (hc : c ∈ chunks) (hr : g.Requests O K c r)
    (hx : B.exec t r x s') : g.Grown O K s s' chunks := by
  rcases hr with rfl | rfl
  · rcases Backend.put_store hx with rfl | ⟨ha, e, -, rfl⟩
    · exact h
    · intro p
      by_cases hp : p = pathFrom (g.chunkKey O K c)
      · subst hp
        have hnone := Store.accepts_none.1 ha
        refine .inr ⟨?_, c, hc, rfl, e, AList.lookup_insert _⟩
        rcases h (pathFrom (g.chunkKey O K c)) with heq | ⟨hn, -⟩
        · rw [← heq, hnone]
        · exact hn
      · rw [AList.lookup_insert_ne hp]
        exact h p
  · rw [Backend.get_store hx]
    exact h

/-! ### Uploads -/

/-- `put_chunk`, whatever else is uploaded meanwhile. -/
theorem uploads_putChunk (ordinal tries : ℕ) :
    g.Uploads O K B c (putChunk O (g.chunkKey O K c) g.key (hashEntry O c) ordinal c tries).run s := by
  induction tries generalizing s with
  | zero => exact nofun
  | succ tries ih =>
    unfold putChunk
    rw [Op.run_ask_bind]
    refine ⟨.inl rfl, fun t x t' _ hx => ?_⟩
    cases x with
    | ok e =>
      obtain ⟨-, e', -, rfl, -⟩ := Backend.put_ok hx
      exact fun _ => ⟨_, AList.lookup_insert _, rfl, rfl⟩
    | error e =>
      -- whatever the upload failed with, the read decides
      dsimp only
      unfold verifyChunk
      rw [Op.attempt_ask_bind, Op.run_ask_bind]
      refine ⟨.inr rfl, fun u y u' _ hy => ?_⟩
      cases y with
      | ok found =>
        obtain ⟨bytes, e'⟩ := found
        dsimp only
        split
        · rw [Op.attempt_throw_bind]
          exact nofun
        · next hsame =>
          rw [not_or, not_not, not_not] at hsame
          rw [Op.attempt_pure_bind]
          obtain ⟨o, ho, rfl, -⟩ := Backend.get_ok hy
          rw [← Backend.get_store hy] at ho
          exact fun _ => ⟨o, ho, hsame⟩
      | error e' =>
        cases e' with
        | notFound =>
          dsimp only
          rw [Op.attempt_throw_bind]
          exact ih
        | preconditionFailed => exact nofun
        | failed => exact nofun

/-- The uploads of chunks one after the other. -/
theorem runs_putChunks {ordinal : ℕ} (hg : g.Grown O K s t chunks') (hs : chunks ⊆ chunks')
    (h : (putChunks O K g.key g.incarnation g.version chunks ordinal).run.Runs B.exec t (.ok ()) s') :
    g.Grown O K s s' chunks' ∧ KeepsAll t s' ∧ ∀ c ∈ chunks, g.Landed O K s' c := by
  induction chunks generalizing t ordinal with
  | nil =>
    obtain ⟨-, rfl⟩ := Prog.runs_ret.1 h
    exact ⟨hg, .refl _, nofun⟩
  | cons c chunks ih =>
    obtain ⟨⟨⟩, u, hput, hrest⟩ := Prog.runs_bindE.1 h
    have hc : c ∈ chunks' := hs List.mem_cons_self
    obtain ⟨⟨hgu, hku⟩, hland⟩ := Prog.Among.runs (J := fun u => g.Grown O K s u chunks' ∧ KeepsAll t u) KeepsAll.refl hput
      (uploads_putChunk ordinal 4) (fun _ _ _ _ hJ hr hx => ⟨hJ.1.request hc hr hx, hJ.2.trans (keeps_of_request hr hx)⟩)
      ⟨hg, .refl t⟩
    obtain ⟨hgs, hks, hall⟩ := ih hgu (fun c' hm => hs (List.mem_cons_of_mem _ hm)) hrest
    exact ⟨hgs, hku.trans hks, List.forall_mem_cons.2 ⟨(hland rfl).later hks, hall⟩⟩

end Generation

/-! ### A staged value -/

/-- The chunks of value `v` are in the bucket `t`, which was `s`, and `m` is their manifest. -/
structure Staged (O : Outside) (K : AtomicKeyspace) (g : Generation) (v commitId : Bytes) (s : Store) (m : ValueManifest)
    (t : Store) : Prop where
  manifest : m = manifestOf O g.incarnation g.version commitId v.length ((chunksOf v).map (hashEntry O))
  grown : g.Grown O K s t (chunksOf v)
  landed : ∀ c ∈ chunksOf v, g.Landed O K t c

/-- No chunk of the value has the length and the digest of another, or of something that is in the bucket. -/
def CollisionFree (O : Outside) (s : Store) (v : Bytes) : Prop :=
  ∀ c ∈ chunksOf v, ∀ d, (d ∈ chunksOf v ∨ ∃ p o, s.lookup p = some o ∧ o.data = d) → d.length = c.length →
    O.sha256 d = O.sha256 c → d = c

section
variable {O : Outside} {K : AtomicKeyspace} {g : Generation} {v commitId commitId' : Bytes} {s t t' : Store} {m m' : ValueManifest}
  {B : Backend} {c : Bytes}

/-- `stage_chunks` stages the value. -/
theorem staged_of_stageChunks
    (h : (stageChunks O K g.key v g.incarnation g.version commitId).run.Runs B.exec s (.ok m) t) :
    Staged O K g v commitId s m t := by
  obtain ⟨⟨⟩, u, hput, hret⟩ := Prog.runs_bindE.1 h
  obtain ⟨hm, rfl⟩ := Prog.runs_ret.1 hret
  obtain ⟨hgrown, -, hland⟩ := Generation.runs_putChunks (.refl s _) (List.Subset.refl _) hput
  exact ⟨Except.ok.inj hm, hgrown, hland⟩

/-- What has landed is the chunk. -/
theorem Staged.data (h : Staged O K g v commitId s m t) (hfree : CollisionFree O s v) (hc : c ∈ chunksOf v) :
    ∃ o, t.lookup (pathFrom (g.chunkKey O K c)) = some o ∧ o.data = c := by
  obtain ⟨o, ho, hlen, hsha⟩ := h.landed c hc
  refine ⟨o, ho, hfree c hc o.data ?_ hlen hsha⟩
  rcases h.grown (pathFrom (g.chunkKey O K c)) with heq | ⟨-, c', hc', -, e, hl⟩
  · exact .inr ⟨_, o, heq.symm.trans ho, rfl⟩
  · rw [ho] at hl
    cases hl
    exact .inl hc'

/-- Two ways to stage a value leave the same bytes everywhere. -/
theorem Staged.data_eq (h : Staged O K g v commitId s m t) (h' : Staged O K g v commitId' s m' t')
    (hfree : CollisionFree O s v) (p : Str) : (t.lookup p).map (·.data) = (t'.lookup p).map (·.data) := by
  by_cases hp : ∃ c ∈ chunksOf v, p = pathFrom (g.chunkKey O K c)
  · obtain ⟨c, hc, rfl⟩ := hp
    obtain ⟨o, ho, rfl⟩ := h.data hfree hc
    obtain ⟨o', ho', hd⟩ := h'.data hfree hc
    rw [ho, ho', Option.map_some, Option.map_some, hd]
  · have hsame : ∀ {u}, g.Grown O K s u (chunksOf v) → u.lookup p = s.lookup p := fun hg => by
      rcases hg p with heq | ⟨-, c, hc, rfl, -⟩
      · exact heq
      · exact absurd ⟨c, hc, rfl⟩ hp
    rw [hsame h.grown, hsame h'.grown]

/-- The chunks of a value in one. -/
theorem flatten_chunksOf (v : Bytes) : (chunksOf v).flatten = v := flatten_toChunks (by decide) v

/-- Where a staged value's chunks still are, its manifest holds it. -/
theorem Staged.holds (h : Staged O K g v commitId s m t) (hfree : CollisionFree O s v)
    (hsame : ∀ c ∈ chunksOf v, t'.lookup (pathFrom (g.chunkKey O K c)) = t.lookup (pathFrom (g.chunkKey O K c))) :
    (ControlEnvelope.chunked m).Holds O K t' g.key v := by
  obtain rfl := h.manifest
  refine ⟨chunksOf v, ?_, flatten_chunksOf v⟩
  show List.Forall₂ (ChunkStored O K t' g.key g.incarnation g.version) ((chunksOf v).map (hashEntry O)) (chunksOf v)
  rw [List.forall₂_map_left_iff, List.forall₂_same]
  intro c hc
  obtain ⟨o, ho, hd⟩ := h.data hfree hc
  exact ⟨⟨o, (hsame c hc).trans ho, hd⟩, rfl, rfl⟩

end

end YeetzS3.Keyspace
