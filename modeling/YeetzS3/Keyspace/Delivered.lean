import YeetzS3.Keyspace.Ranges
import YeetzS3.Keyspace.Laws
import YeetzS3.Region

/-!
# Range readers return the slice

A stored value whose chunks are intact is what `get` returns, and a reader of a window of it delivers the bytes of the window:
in order, none twice, none from outside, in whatever order its fetches complete.
-/

namespace YeetzS3.Keyspace

open Conc

/-! ### Slices of a value -/

theorem slice_slice (v : Bytes) {i m j n : ℕ} (h : j + n ≤ m) : slice (slice v i m) j n = slice v (i + j) n := by
  unfold slice
  rw [List.drop_take, List.drop_drop, List.take_take, min_eq_left (by omega)]

theorem slice_append_slice (v : Bytes) (i n m : ℕ) : slice v i n ++ slice v (i + n) m = slice v i (n + m) := by
  unfold slice
  rw [← List.drop_drop, ← List.take_add]

/-- The chunks of a canonical table are the slices of the whole. -/
theorem CanonicalTable.slice_eq {entries : List ManifestEntry} {chunks : List Bytes} (h : CanonicalTable entries)
    (hl : List.Forall₂ (fun entry (chunk : Bytes) => chunk.length = entry.encodedLen) entries chunks) {i : ℕ} {chunk : Bytes}
    (hc : chunks[i]? = some chunk) : chunk = slice chunks.flatten (i * chunkBytes) chunkBytes := by
  induction hl generalizing i with
  | nil => cases hc
  | @cons entry head entries chunks hhead hrest ih =>
    obtain ⟨he, hrest'⟩ := canonicalTable_cons.1 h
    have hle : head.length ≤ chunkBytes := hhead ▸ he.le
    -- every chunk but the last is full
    have hfull : chunks ≠ [] → head.length = chunkBytes := by
      intro hne
      cases hrest with
      | nil => exact absurd rfl hne
      | cons => exact hhead.trans he
    unfold slice at *
    rw [List.flatten_cons]
    cases i with
    | zero =>
      obtain rfl : head = chunk := by simpa using hc
      rw [Nat.zero_mul, List.drop_zero]
      by_cases hne : chunks = []
      · rw [hne, List.flatten_nil, List.append_nil, List.take_of_length_le hle]
      · rw [← hfull hne, List.take_left']
        rfl
    | succ i =>
      rw [List.getElem?_cons_succ] at hc
      have hne : chunks ≠ [] := by
        rintro rfl
        cases hc
      have hdrop : (i + 1) * chunkBytes = head.length + i * chunkBytes := by rw [hfull hne, Nat.succ_mul, Nat.add_comm]
      rw [hdrop, ← List.drop_drop, List.drop_left' rfl]
      exact ih hrest' hc

/-! ### Stored values -/

/-- A chunk is there as an entry of its manifest has it. -/
structure ChunkStored (O : Outside) (K : AtomicKeyspace) (s : Store) (key : Str) (incarnation version : UInt64) (entry : ManifestEntry)
    (chunk : Bytes) : Prop where
  found : ∃ o, s.lookup (pathFrom (chunkObjectKey K.ns key incarnation version entry.digestHex)) = some o ∧ o.data = chunk
  length : chunk.length = entry.encodedLen
  digest : O.sha256 chunk = entry.sha256

/-- A control holds the value `v`: it is its payload, or its chunks are all there. -/
def ControlEnvelope.Holds (O : Outside) (K : AtomicKeyspace) (s : Store) (key : Str) (v : Bytes) : ControlEnvelope → Prop
  | .inline envelope => envelope.payload = v
  | .chunked manifest => ∃ chunks,
    List.Forall₂ (ChunkStored O K s key manifest.incarnation manifest.version) manifest.entries chunks ∧ chunks.flatten = v

/-- A value is stored under a key. -/
structure Stored (O : Outside) (K : AtomicKeyspace) (s : Store) (key : Str) (control : ControlEnvelope) (v : Bytes) : Prop where
  path : K.objectKey key = .ok (K.root ++ key)
  found : ∃ o, s.lookup (K.root ++ key) = some o ∧ ControlEnvelope.decode O key o.data = .ok control
  holds : control.Holds O K s key v

/-- What the store answers the fetches of a reader. -/
def ChunkReader.answersIn (K : AtomicKeyspace) (s : Store) (c : ChunkReader) (ordinal : ℕ) :
    Except StoreError (Bytes × Option Etag) :=
  match c.entries[ordinal]? with
  | some entry => s.answers (.get (chunkObjectKey K.ns c.key c.incarnation c.version entry.digestHex))
  | none => .error .notFound

def ValueReader.answersIn (K : AtomicKeyspace) (s : Store) (r : ValueReader) : ℕ → Except StoreError (Bytes × Option Etag) :=
  match r.source with
  | .inline _ => fun _ => .error .notFound
  | .chunked c => c.answersIn K s

section
variable {O : Outside} {K : AtomicKeyspace} {s : Store} {key : Str} {control : ControlEnvelope} {v : Bytes}

theorem answers_get {path : Str} {o : Object} (h : s.lookup (pathFrom path) = some o) :
    s.answers (.get path) = .ok (o.data, some o.etag) := by
  show s.found (pathFrom path) = _
  rw [Store.found, h]

theorem answer_fetchAllChunks {incarnation version : UInt64} {entries : List ManifestEntry} {chunks : List Bytes}
    (h : List.Forall₂ (ChunkStored O K s key incarnation version) entries chunks) (ordinal : ℕ) :
    (fetchAllChunks O K key incarnation version entries ordinal).run.answer s.answers = some (.ok chunks.flatten) := by
  induction h generalizing ordinal with
  | nil => rfl
  | @cons entry chunk entries chunks hchunk _ ih =>
    obtain ⟨⟨o, ho, rfl⟩, hlen, hsha⟩ := hchunk
    refine Op.answer_bind_ok.2 ⟨o.data, ?_, Op.answer_bind_ok.2 ⟨chunks.flatten, ih (ordinal + 1), rfl⟩⟩
    show (fetchChunk O K key incarnation version entry ordinal).run.answer s.answers = _
    unfold fetchChunk
    rw [Op.run_ask_bind, Prog.answer_call, answers_get ho]
    dsimp only
    rw [if_neg (by simp [hlen, hsha])]
    rfl

theorem Stored.answer_control (h : Stored O K s key control v) : ∃ o : Object,
    s.answers (.get (K.root ++ key)) = .ok (o.data, some o.etag) ∧ ControlEnvelope.decode O key o.data = .ok control := by
  obtain ⟨o, ho, hd⟩ := h.found
  refine ⟨o, answers_get ?_, hd⟩
  rwa [pathFrom_of_valid (AtomicKeyspace.validPath_root_append (AtomicKeyspace.objectKey_ok h.path).2)]

/-- `get` returns the value that is stored. -/
theorem Stored.get (h : Stored O K s key control v) : (Keyspace.get O K key).run.answer s.answers = some (.ok (some v)) := by
  obtain ⟨o, ho, hd⟩ := h.answer_control
  have hvalue : (collectValue O K key o.data).run.answer s.answers = some (.ok v) := by
    unfold collectValue
    rw [hd]
    refine Op.answer_bind_ok.2 ⟨control, rfl, ?_⟩
    have hholds := h.holds
    cases control with
    | inline envelope => exact congrArg (some ∘ Except.ok) hholds
    | chunked manifest =>
      obtain ⟨chunks, hchunks, rfl⟩ := hholds
      exact answer_fetchAllChunks hchunks 0
  unfold Keyspace.get
  rw [h.path]
  refine Op.answer_bind_ok.2 ⟨K.root ++ key, rfl, ?_⟩
  rw [Op.run_ask_bind, Prog.answer_call, ho]
  dsimp only
  rw [map_eq_pure_bind]
  exact Op.answer_bind_ok.2 ⟨v, hvalue, rfl⟩

/-- Opening binds what is stored to the window. -/
theorem Stored.open_window (h : Stored O K s key control v) (range : Option (ℕ × ℕ)) : ∃ etag,
    (ValueReader.openStreamWindow O K key range).run.answer s.answers =
      some ((ValueReader.of key etag control range).map some) := by
  obtain ⟨o, ho, hd⟩ := h.answer_control
  refine ⟨o.etag, ?_⟩
  have hopen : (Keyspace.openStream O K key).run.answer s.answers = some (.ok (some (control, o.etag))) := by
    unfold Keyspace.openStream
    rw [h.path]
    refine Op.answer_bind_ok.2 ⟨K.root ++ key, rfl, ?_⟩
    rw [Op.run_ask_bind, Prog.answer_call, ho]
    dsimp only
    rw [hd]
    rfl
  unfold ValueReader.openStreamWindow
  rw [Op.answer_bind_of_ok hopen]
  dsimp only
  rw [map_eq_pure_bind]
  cases ValueReader.of key o.etag control range with
  | ok r => rfl
  | error e => rfl

/-! ### What a reader delivers -/

/-- The bytes a run of polls put into the caller's buffers. -/
def received : List Polled → Bytes
  | [] => []
  | .ready out :: ps => out ++ received ps
  | .error _ :: ps => received ps
  | .pending :: ps => received ps

/-- The fetches of a reader in flight. -/
def ValueReader.inFlight (r : ValueReader) : List ℕ :=
  match r.source with
  | .inline _ => []
  | .chunked c => c.inFlight

/-- The ordinal a reader fetches next. -/
def ValueReader.nextFetch (r : ValueReader) : ℕ :=
  match r.source with
  | .inline _ => 0
  | .chunked c => c.nextFetch

/-- The chunks whose fetches were started between two states of a reader. -/
def ValueReader.fetches (r r' : ValueReader) : List ℕ := List.range' r.nextFetch (r'.nextFetch - r.nextFetch)

/-- A reader delivers the bytes of `v` from `a` to `b`. -/
structure ValueReader.Delivers (O : Outside) (answers : ℕ → Except StoreError (Bytes × Option Etag)) (v : Bytes) (a b : ℕ)
    (r : ValueReader) : Prop where
  /-- No poll of a run fails, and the run's bytes are those of the value from `a` on. -/
  bytes : ∀ ps, (∀ e, .error e ∉ (r.polls O answers ps).1) ∧ a ≤ (r.polls O answers ps).2.position ∧
    (r.polls O answers ps).2.position ≤ b ∧
    received (r.polls O answers ps).1 = slice v a ((r.polls O answers ps).2.position - a)
  /-- The end is reported at `b`. -/
  ends : ∀ ps p, 0 < p.room → ((r.polls O answers ps).2.poll O answers p).1 = .ready [] →
    (r.polls O answers ps).2.position = b
  /-- A poll that is not ready waits for a fetch that does not complete during it. -/
  waits : ∀ ps p, ((r.polls O answers ps).2.poll O answers p).1 = .pending →
    ∃ i ∈ ((r.polls O answers ps).2.poll O answers p).2.inFlight, i ∉ p.order
  /-- If every fetch completes during the poll that waits for it, as many polls as there are bytes read to the end. -/
  finishes : ∀ ps : List Poll, b - a ≤ ps.length →
    (∀ p ∈ ps, 0 < p.room ∧ ∀ q, a ≤ q → q < b → q / chunkBytes ∈ p.order) → (r.polls O answers ps).2.position = b
  /-- Only chunks that a byte of the window lies in are fetched. -/
  fetches : ∀ ps, ∀ i ∈ r.fetches (r.polls O answers ps).2, ∃ q, a ≤ q ∧ q < b ∧ q / chunkBytes = i

/-- What one poll of a reader of `v` returns. -/
inductive ValueReader.Turn (v : Bytes) (p : Poll) (r r' : ValueReader) : Polled → Prop where
  | bytes {out : Bytes} (hout : out = slice v r.position out.length) (hpos : r'.position = r.position + out.length)
      (hend : out = [] → r.stop ≤ r.position ∨ p.room = 0) : Turn v p r r' (.ready out)
  | wait {i : ℕ} (hpos : r'.position = r.position) (hi : i ∈ r'.inFlight) (hn : i ∉ p.order) : Turn v p r r' .pending

/-- An invariant of the polls of a reader of `v` from `a` to `b`. -/
structure ValueReader.Invariant (O : Outside) (answers : ℕ → Except StoreError (Bytes × Option Etag)) (v : Bytes) (a b next : ℕ)
    (I : ValueReader → Prop) : Prop where
  step : ∀ r p, I r → I (r.poll O answers p).2 ∧ Turn v p r (r.poll O answers p).2 (r.poll O answers p).1
  start_le : ∀ r, I r → a ≤ r.position
  le_stop : ∀ r, I r → r.position ≤ r.stop ∧ r.stop = b
  fetched : ∀ r, I r → ∀ i, next ≤ i → i < r.nextFetch → ∃ q, a ≤ q ∧ q < b ∧ q / chunkBytes = i
  inFlight : ∀ r, I r → ∀ i ∈ r.inFlight, ∃ q, a ≤ q ∧ q < b ∧ q / chunkBytes = i

section
variable {answers : ℕ → Except StoreError (Bytes × Option Etag)} {a b : ℕ} {I : ValueReader → Prop} {r : ValueReader} {next : ℕ}

theorem ValueReader.Invariant.run (hI : ValueReader.Invariant O answers v a b next I) (h : I r) (ps : List Poll) :
    I (r.polls O answers ps).2 ∧ (∀ e, .error e ∉ (r.polls O answers ps).1) ∧ r.position ≤ (r.polls O answers ps).2.position ∧
      received (r.polls O answers ps).1 = slice v r.position ((r.polls O answers ps).2.position - r.position) := by
  induction ps generalizing r with
  | nil => exact ⟨h, fun _ => List.not_mem_nil, le_rfl, by rw [ValueReader.polls, Nat.sub_self]; rfl⟩
  | cons p ps ih =>
    obtain ⟨h₁, hturn⟩ := hI.step r p h
    obtain ⟨h₂, hno, hle, hbytes⟩ := ih h₁
    unfold ValueReader.polls
    dsimp only
    generalize (r.poll O answers p).1 = polled at hturn ⊢
    generalize (r.poll O answers p).2 = r₁ at *
    cases hturn with
    | @bytes out hout hpos _ =>
      refine ⟨h₂, fun e hm => ?_, by omega, ?_⟩
      · rcases List.mem_cons.1 hm with he | hm
        · cases he
        · exact hno e hm
      · rw [received, hbytes, hpos]
        nth_rewrite 1 [hout]
        rw [slice_append_slice]
        congr 1
        omega
    | wait hpos _ _ =>
      refine ⟨h₂, fun e hm => ?_, by omega, ?_⟩
      · rcases List.mem_cons.1 hm with he | hm
        · cases he
        · exact hno e hm
      · rw [received, hbytes, hpos]

theorem ValueReader.Invariant.finishes (hI : ValueReader.Invariant O answers v a b next I) (h : I r) {ps : List Poll}
    (hlen : r.stop - r.position ≤ ps.length)
    (hps : ∀ p ∈ ps, 0 < p.room ∧ ∀ q, a ≤ q → q < b → q / chunkBytes ∈ p.order) : (r.polls O answers ps).2.position = b := by
  induction ps generalizing r with
  | nil =>
    have hle := hI.le_stop r h
    have hzero : r.stop - r.position ≤ 0 := hlen
    show r.position = b
    omega
  | cons p ps ih =>
    obtain ⟨h₁, hturn⟩ := hI.step r p h
    obtain ⟨hroom, horder⟩ := hps p List.mem_cons_self
    show ((r.poll O answers p).2.polls O answers ps).2.position = b
    refine ih h₁ ?_ fun p hp => hps p (List.mem_cons_of_mem _ hp)
    have hle := hI.le_stop r h
    have hle₁ := hI.le_stop _ h₁
    have hlen : r.stop - r.position ≤ ps.length + 1 := hlen
    have hflight := hI.inFlight _ h₁
    generalize (r.poll O answers p).1 = polled at hturn
    cases hturn with
    | @bytes out hout hpos hend =>
      by_cases hne : out = []
      · have := hend hne
        omega
      · have := List.length_pos_iff.2 hne
        omega
    | wait hpos hi hn =>
      obtain ⟨q, hq, hq', rfl⟩ := hflight _ hi
      exact absurd (horder q hq hq') hn

/-- A reader that satisfies an invariant delivers the window. -/
theorem ValueReader.Invariant.delivers (hI : ValueReader.Invariant O answers v a b next I) (h : I r) (hstart : r.position = a)
    (hnext : r.nextFetch = next) : r.Delivers O answers v a b := by
  have hrun := hI.run h
  refine ⟨fun ps => ?_, fun ps p hroom hend => ?_, fun ps p hwait => ?_, fun ps hlen hps => ?_, fun ps i hi => ?_⟩
  · obtain ⟨h₁, hno, -, hbytes⟩ := hrun ps
    have hle := hI.le_stop _ h₁
    exact ⟨hno, hI.start_le _ h₁, hle.1.trans hle.2.le, hstart ▸ hbytes⟩
  · obtain ⟨h₁, -⟩ := hrun ps
    obtain ⟨-, hturn⟩ := hI.step _ p h₁
    have hle := hI.le_stop _ h₁
    rw [hend] at hturn
    generalize hout : Polled.ready [] = polled at hturn
    cases hturn with
    | bytes _ _ hover =>
      cases hout
      have := hover rfl
      omega
    | wait => cases hout
  · obtain ⟨h₁, -⟩ := hrun ps
    obtain ⟨-, hturn⟩ := hI.step _ p h₁
    rw [hwait] at hturn
    generalize hout : Polled.pending = polled at hturn
    cases hturn with
    | bytes => cases hout
    | wait _ hi hn => exact ⟨_, hi, hn⟩
  · have hle := hI.le_stop r h
    exact hI.finishes h (by omega) hps
  · obtain ⟨h₁, -⟩ := hrun ps
    unfold ValueReader.fetches at hi
    rw [List.mem_range'_1, hnext] at hi
    exact hI.fetched _ h₁ i hi.1 (by omega)

/-! ### Both sources -/

/-- The polls of an inline value. -/
theorem inline_invariant (hb : b ≤ v.length) : ValueReader.Invariant O answers v a b 0 fun r =>
    r.source = .inline v ∧ a ≤ r.position ∧ r.position ≤ r.stop ∧ r.stop = b where
  step r p h := by
    obtain ⟨hsource, hstart, hle, hstop⟩ := h
    by_cases hidle : r.stop ≤ r.position ∨ p.room = 0
    · rw [ValueReader.poll_idle hidle]
      exact ⟨⟨hsource, hstart, hle, hstop⟩, .bytes rfl rfl fun _ => hidle⟩
    · unfold ValueReader.poll
      rw [if_neg hidle, hsource]
      dsimp only
      generalize hcount : min (min r.stop v.length - r.position) p.room = count
      have hlen : (slice v r.position count).length = count := slice_length (by omega)
      refine ⟨⟨rfl, by omega, by omega, hstop⟩, .bytes ?_ ?_ fun hnil => ?_⟩
      · rw [hlen]
      · rw [hlen]
      · rw [hnil] at hlen
        have hzero : 0 = count := hlen
        omega
  start_le r h := h.2.1
  le_stop r h := h.2.2
  fetched r h i _ hi := by
    unfold ValueReader.nextFetch at hi
    rw [h.1] at hi
    cases hi
  inFlight r h i hi := by
    unfold ValueReader.inFlight at hi
    rw [h.1] at hi
    cases hi

/-- A reader of the chunks of `v` between polls, none of whose fetches fails. -/
structure ValueReader.Serves (O : Outside) (answers : ℕ → Except StoreError (Bytes × Option Etag)) (v : Bytes) (a b first last : ℕ)
    (fetched : ℕ → Except KeyspaceError Bytes) (r : ValueReader) (c : ChunkReader) : Prop where
  ok : r.Ok O answers first v.length c
  whole : c.Whole
  start_le : a ≤ r.position
  stop_eq : r.stop = b
  last_eq : c.lastFetch = last
  fetched_eq : c.fetched O answers = fetched
  started : a < b ∨ c.nextFetch = first

/-- The polls of a chunked value. -/
theorem chunked_invariant {first last : ℕ} {fetched : ℕ → Except KeyspaceError Bytes}
    (hslices : ∀ i chunk, fetched i = .ok chunk → chunk = slice v (i * chunkBytes) chunkBytes)
    (hall : ∀ i, i < last → ∃ chunk, fetched i = .ok chunk)
    (hwindow : ∀ i, first ≤ i → i < last → a < b → ∃ q, a ≤ q ∧ q < b ∧ q / chunkBytes = i) :
    ValueReader.Invariant O answers v a b first fun r => ∃ c, r.Serves O answers v a b first last fetched c where
  step r p h := by
    obtain ⟨c, h⟩ := h
    by_cases hidle : r.stop ≤ r.position ∨ p.room = 0
    · rw [ValueReader.poll_idle hidle]
      exact ⟨⟨c, h⟩, .bytes rfl rfl fun _ => hidle⟩
    · have hlt : r.position < r.stop := by omega
      obtain ⟨c', hok, hk, -, hstop, hpoll⟩ := h.ok.poll (p := p) hlt (by omega)
      rw [h.fetched_eq] at hpoll
      have hserves : c'.Whole → a ≤ (r.poll O answers p).2.position →
          ∃ c, (r.poll O answers p).2.Serves O answers v a b first last fetched c := fun hw hle =>
        ⟨c', hok, hw, hle, hstop.trans h.stop_eq, hk.last.trans h.last_eq, by rw [hk.fetched_eq, h.fetched_eq],
          .inl (h.start_le.trans_lt (h.stop_eq ▸ hlt))⟩
      have hstart := h.start_le
      have hsource : (r.poll O answers p).2.inFlight = c'.inFlight := by
        unfold ValueReader.inFlight
        rw [hok.source]
      generalize (r.poll O answers p).1 = polled at hpoll
      cases hpoll with
      | @bytes out chunk hne hroom hc hout hfit hpos _ hw =>
        refine ⟨hserves (hw h.whole) (by omega), .bytes ?_ hpos fun hnil => absurd hnil hne⟩
        have hchunk := hslices _ _ hc
        have hle : r.position % chunkBytes + out.length ≤ chunkBytes := by
          refine hfit.trans ?_
          rw [hchunk, slice, List.length_take]
          exact min_le_left ..
        rw [hchunk, slice_slice _ hle, Nat.div_add_mod'] at hout
        exact hout
      | ended _ hlost => exact absurd h.whole hlost
      | @wait i hpos hi hn hw => exact ⟨hserves (hw h.whole) (by omega), .wait hpos (hsource ▸ hi) hn⟩
      | failed _ _ hlt' hf =>
        obtain ⟨chunk, hc⟩ := hall _ (h.last_eq ▸ hlt')
        rw [hf] at hc
        cases hc
  start_le r h := by
    obtain ⟨c, h⟩ := h
    exact h.start_le
  le_stop r h := by
    obtain ⟨c, h⟩ := h
    exact ⟨h.ok.position_le, h.stop_eq⟩
  fetched r h i hi hlt := by
    obtain ⟨c, h⟩ := h
    unfold ValueReader.nextFetch at hlt
    rw [h.ok.source] at hlt
    have hnext := h.ok.reader.next_le
    rcases h.started with hab | hfirst
    · exact hwindow i hi (h.last_eq ▸ Nat.lt_of_lt_of_le hlt hnext) hab
    · exact absurd (Nat.lt_of_lt_of_eq hlt hfirst) (Nat.not_lt.2 hi)
  inFlight r h i hi := by
    obtain ⟨c, h⟩ := h
    unfold ValueReader.inFlight at hi
    rw [h.ok.source] at hi
    have hheld : i ∈ c.held := ChunkReader.mem_held.2 (.inl hi)
    have hfirst := h.ok.reader.first_le.trans (h.ok.reader.held_le i hheld)
    have hlt := h.ok.reader.held_lt i hheld
    have hnext := h.ok.reader.next_le
    rcases h.started with hab | hnone
    · exact hwindow i hfirst (h.last_eq ▸ Nat.lt_of_lt_of_le hlt hnext) hab
    · exact absurd (Nat.lt_of_lt_of_eq hlt hnone) (Nat.not_lt.2 hfirst)

end

/-- The logical length of a control. -/
def ControlEnvelope.logicalLen : ControlEnvelope → ℕ
  | .inline envelope => envelope.payload.length
  | .chunked manifest => manifest.logicalLen

theorem Stored.logicalLen (h : Stored O K s key control v) : control.logicalLen = v.length := by
  obtain ⟨o, -, hd⟩ := h.found
  have hholds := h.holds
  cases control with
  | inline envelope => exact congrArg List.length hholds
  | chunked m =>
    obtain ⟨hm, -⟩ := ControlEnvelope.decode_chunked.1 hd
    obtain ⟨chunks, hchunks, rfl⟩ := hholds
    show m.logicalLen = _
    rw [← hm.sum, List.length_flatten]
    congr 1
    clear h
    generalize m.entries = entries at hchunks ⊢
    induction hchunks with
    | nil => rfl
    | cons hchunk _ ih => rw [List.map_cons, List.map_cons, hchunk.length, ih]

theorem ValueReader.of_eq (key : Str) (etag : Etag) (control : ControlEnvelope) (range : Option (ℕ × ℕ)) :
    (range.isSome ∧ ((range.getD (0, control.logicalLen)).2 < (range.getD (0, control.logicalLen)).1 ∨
        control.logicalLen < (range.getD (0, control.logicalLen)).2) →
      ValueReader.of key etag control range = .error (.invalidRange key (range.getD (0, control.logicalLen)).1
        (range.getD (0, control.logicalLen)).2 control.logicalLen)) ∧
    (¬ (range.isSome ∧ ((range.getD (0, control.logicalLen)).2 < (range.getD (0, control.logicalLen)).1 ∨
        control.logicalLen < (range.getD (0, control.logicalLen)).2)) →
      ∃ r, ValueReader.of key etag control range = .ok r) := by
  cases control with
  | inline envelope => exact ⟨fun h => if_pos h, fun h => ⟨_, if_neg h⟩⟩
  | chunked m => exact ⟨fun h => if_pos h, fun h => ⟨_, if_neg h⟩⟩

theorem ValueReader.logicalLen_of {etag : Etag} {range : Option (ℕ × ℕ)} {r : ValueReader}
    (h : ValueReader.of key etag control range = .ok r) : r.metadata.logicalLen = control.logicalLen := by
  unfold ValueReader.of at h
  cases control with
  | inline envelope =>
    dsimp only at h
    split at h
    · cases h
    · cases h
      rfl
  | chunked m =>
    dsimp only at h
    split at h
    · cases h
    · cases h
      rfl

/-- The reader of a window of a stored value delivers it. -/
theorem Stored.reader (h : Stored O K s key control v) (etag : Etag) (range : Option (ℕ × ℕ)) {a b : ℕ}
    (hw : range.getD (0, v.length) = (a, b)) (hab : a ≤ b) (hb : b ≤ v.length) : ∃ r,
    ValueReader.of key etag control range = .ok r ∧ r.Delivers O (r.answersIn K s) v a b := by
  have hlen := h.logicalLen
  obtain ⟨r, hr⟩ := (ValueReader.of_eq key etag control range).2 (by rw [hlen, hw]; omega)
  refine ⟨r, hr, ?_⟩
  obtain ⟨o, -, hd⟩ := h.found
  have hholds := h.holds
  cases control with
  | inline envelope =>
    have hholds : envelope.payload = v := hholds
    unfold ValueReader.of at hr
    dsimp only at hr
    rw [hholds, hw] at hr
    dsimp only at hr
    rw [if_neg (by omega)] at hr
    cases hr
    exact (inline_invariant hb).delivers ⟨rfl, le_rfl, hab, rfl⟩ rfl rfl
  | chunked m =>
    obtain ⟨hm, -⟩ := ControlEnvelope.decode_chunked.1 hd
    obtain ⟨c, ho, hrange⟩ := ValueReader.opened_of hm hr
    obtain ⟨chunks, hchunks, hflat⟩ := hholds
    have hlen : m.logicalLen = v.length := hlen
    rw [hlen, hw] at hrange
    obtain ⟨rfl, rfl⟩ := Prod.mk.inj hrange
    obtain ⟨hok, hwhole⟩ := ho.ok hm (r.answersIn K s)
    rw [hlen] at hok
    -- every fetch brings the chunk of the manifest
    have hfetched : ∀ i, i < m.entries.length →
        ∃ chunk, chunks[i]? = some chunk ∧ c.fetched O (r.answersIn K s) i = .ok chunk := by
      intro i hi
      have hi' : i < chunks.length := hchunks.length_eq ▸ hi
      have hchunk : ChunkStored O K s key m.incarnation m.version m.entries[i] chunks[i] := hchunks.get hi hi'
      obtain ⟨o, ho', hdata⟩ := hchunk.found
      refine ⟨chunks[i], List.getElem?_eq_getElem hi', ho.fetched_ok.2 ⟨m.entries[i], List.getElem?_eq_getElem hi, ?_⟩⟩
      refine fetchedChunk_ok.2 ⟨⟨some o.etag, ?_⟩, hchunk.length, hchunk.digest⟩
      unfold ValueReader.answersIn
      rw [ho.source, ho.fresh]
      unfold ChunkReader.answersIn
      dsimp only
      rw [List.getElem?_eq_getElem hi]
      dsimp only
      rw [answers_get ho', hdata]
    have hslices : ∀ i chunk, c.fetched O (r.answersIn K s) i = .ok chunk → chunk = slice v (i * chunkBytes) chunkBytes := by
      intro i chunk hc
      obtain ⟨entry, he, -⟩ := ho.fetched_ok.1 hc
      obtain ⟨hi, -⟩ := List.getElem?_eq_some_iff.1 he
      obtain ⟨chunk', hchunk, hc'⟩ := hfetched i hi
      obtain rfl : chunk = chunk' := Except.ok.inj (hc.symm.trans hc')
      rw [← hflat]
      exact hm.table.slice_eq (hchunks.imp fun _ _ h => h.length) hchunk
    obtain ⟨-, hlast, -, hwindow⟩ := ho.bounds hm
    have hnext : r.nextFetch = r.position / chunkBytes := by
      unfold ValueReader.nextFetch
      rw [ho.source, ho.fresh]
    have hall : ∀ i, i < c.lastFetch → ∃ chunk, c.fetched O (r.answersIn K s) i = .ok chunk := by
      intro i hi
      obtain ⟨chunk, -, hc⟩ := hfetched i (hi.trans_le hlast)
      exact ⟨chunk, hc⟩
    exact (chunked_invariant hslices hall hwindow).delivers
      ⟨c, hok, hwhole, le_rfl, rfl, rfl, rfl, .inr (by rw [ho.fresh])⟩ rfl hnext

/-- Range readers return exactly the slice, and the reader of the whole agrees with `get`. -/
theorem range_slice (h : Stored O K s key control v) :
    (Keyspace.get O K key).run.answer s.answers = some (.ok (some v)) ∧
    (∃ r, (ValueReader.openStream O K key).run.answer s.answers = some (.ok (some r)) ∧
      r.Delivers O (r.answersIn K s) v 0 v.length) ∧
    (∀ a b, a ≤ b → b ≤ v.length → ∃ r,
      (ValueReader.openStreamRange O K key a b).run.answer s.answers = some (.ok (some r)) ∧
        r.Delivers O (r.answersIn K s) v a b) ∧
    ∀ a b, b < a ∨ v.length < b →
      (ValueReader.openStreamRange O K key a b).run.answer s.answers = some (.error (.invalidRange key a b v.length)) := by
  have hlen := h.logicalLen
  refine ⟨h.get, ?_, fun a b hab hb => ?_, fun a b hbad => ?_⟩
  · obtain ⟨etag, hopen⟩ := h.open_window none
    obtain ⟨r, hr, hd⟩ := h.reader etag none rfl (Nat.zero_le _) le_rfl
    rw [hr] at hopen
    exact ⟨r, hopen, hd⟩
  · obtain ⟨etag, hopen⟩ := h.open_window (some (a, b))
    obtain ⟨r, hr, hd⟩ := h.reader etag (some (a, b)) rfl hab hb
    rw [hr] at hopen
    refine ⟨r, ?_, hd⟩
    unfold ValueReader.openStreamRange
    rw [if_neg (by omega)]
    exact hopen
  · unfold ValueReader.openStreamRange
    split
    · next hba =>
      obtain ⟨etag, hopen⟩ := h.open_window none
      obtain ⟨r, hr, -⟩ := h.reader etag none rfl (Nat.zero_le _) le_rfl
      rw [hr] at hopen
      refine (Op.answer_bind_of_ok hopen).trans ?_
      rw [← hlen, ← ValueReader.logicalLen_of hr]
      rfl
    · next hab =>
      obtain ⟨etag, hopen⟩ := h.open_window (some (a, b))
      rw [hopen, (ValueReader.of_eq key etag control (some (a, b))).1 ?_, hlen]
      · rfl
      · rw [hlen]
        exact ⟨rfl, hbad⟩

end

/-- A namespace with one value: two chunks of zeros, which are one object. -/
def zerosStore (K : AtomicKeyspace) : Store :=
  ((∅ : Store).insert (pathFrom (chunkObjectKey K.ns "k".toList 0 0 (hashEntry plainOutside (List.replicate chunkBytes 0)).digestHex))
    ⟨List.replicate chunkBytes 0, []⟩).insert (K.root ++ "k".toList) ⟨(zerosManifest 2).encode, []⟩

theorem zerosStore_stored (K : AtomicKeyspace) (hk : K.objectKey "k".toList = .ok (K.root ++ "k".toList)) :
    Stored plainOutside K (zerosStore K) "k".toList (.chunked (zerosManifest 2))
      (List.replicate 2 (List.replicate chunkBytes (0 : UInt8))).flatten where
  path := hk
  found := ⟨_, AList.lookup_insert _, zerosManifest_decode (by decide) (by decide) _⟩
  holds := by
    have hchunk : ChunkStored plainOutside K (zerosStore K) "k".toList 0 0 (hashEntry plainOutside (List.replicate chunkBytes 0))
        (List.replicate chunkBytes 0) := by
      refine ⟨⟨⟨List.replicate chunkBytes 0, []⟩, ?_, rfl⟩, rfl, rfl⟩
      unfold zerosStore
      rw [AList.lookup_insert_ne (pathFrom_chunk_ne _ _ _ _ _ _ _), AList.lookup_insert]
    exact ⟨_, .cons hchunk (.cons hchunk .nil), rfl⟩

/-- A window over the end of its first chunk. -/
theorem range_slice_zeros : ∃ r,
    (ValueReader.openStreamRange plainOutside letterSpace "k".toList (chunkBytes - 1) (chunkBytes + 2)).run.answer
        (zerosStore letterSpace).answers = some (.ok (some r)) ∧
      r.Delivers plainOutside (r.answersIn letterSpace (zerosStore letterSpace))
        (List.replicate 2 (List.replicate chunkBytes (0 : UInt8))).flatten (chunkBytes - 1) (chunkBytes + 2) := by
  refine (range_slice (zerosStore_stored letterSpace rfl)).2.2.1 (chunkBytes - 1) (chunkBytes + 2) (by decide) ?_
  rw [length_flatten_full fun c hc => by rw [List.eq_of_mem_replicate hc, List.length_replicate], List.length_replicate]
  decide

end YeetzS3.Keyspace
