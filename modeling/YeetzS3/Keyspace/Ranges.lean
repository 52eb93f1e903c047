import YeetzS3.Keyspace.ReaderInv

/-!
# What a stream reader delivers

An opened reader satisfies the invariant of its polls, so a run of them yields the window's bytes in order. A fetch that
fails is the one way a chunk is lost, and a window of more than five chunks the one way a reader holds more than five.
-/

namespace YeetzS3.Keyspace

open Conc

/-! ### What a poll keeps -/

namespace ChunkReader

/-- What no poll changes, and the ordinals it asks for next. -/
structure Kept (r r' : ChunkReader) : Prop where
  key : r'.key = r.key
  entries : r'.entries = r.entries
  last : r'.lastFetch = r.lastFetch
  next : r.nextFetch ≤ r'.nextFetch

/-- The fetches that are still to complete. -/
def outstanding (r : ChunkReader) : ℕ := r.lastFetch - r.nextFetch + r.inFlight.length

section
variable {fetched : ℕ → Except KeyspaceError Bytes} {r r' r'' : ChunkReader} {size len first position stop room window : ℕ}
  {order : List ℕ}

theorem Kept.rfl : Kept r r := ⟨.refl _, .refl _, .refl _, le_rfl⟩

theorem Kept.trans (h : Kept r r') (h' : Kept r' r'') : Kept r r'' :=
  ⟨h'.key.trans h.key, h'.entries.trans h.entries, h'.last.trans h.last, h.next.trans h'.next⟩

theorem Kept.fetched_eq {O : Outside} (h : Kept r r') : ChunkReader.fetched O r' = ChunkReader.fetched O r := by
  funext answers i
  unfold ChunkReader.fetched
  rw [h.entries, h.key]

theorem kept_refill (n : ℕ) : Kept r (r.refill n) ∧ (r.refill n).outstanding = r.outstanding := by
  induction n generalizing r with
  | zero => exact ⟨.rfl, .refl _⟩
  | succ n ih =>
    unfold ChunkReader.refill
    split
    · next hc =>
      obtain ⟨hk, ho⟩ := ih (r := { r with inFlight := r.inFlight ++ [r.nextFetch], nextFetch := r.nextFetch + 1 })
      refine ⟨⟨hk.key, hk.entries, hk.last, (Nat.le_succ _).trans hk.next⟩, ho.trans ?_⟩
      unfold outstanding
      simp only [List.length_append, List.length_singleton]
      omega
    · exact ⟨.rfl, .refl _⟩

theorem kept_yield (r : ChunkReader) (chunk : Bytes) (start count position : ℕ) : Kept r (r.yield chunk start count position).2.1 ∧
    (r.yield chunk start count position).2.1.outstanding = r.outstanding := by
  unfold ChunkReader.yield
  dsimp only
  split <;> exact ⟨⟨.refl _, .refl _, .refl _, le_rfl⟩, .refl _⟩

/-- A poll that fails has one fetch less to wait for. -/
def Waits (r : ChunkReader) (polled : Polled) (r' : ChunkReader) : Prop :=
  r'.outstanding ≤ r.outstanding ∧ ∀ e, polled = .error e → r'.outstanding < r.outstanding

theorem kept_nextChunk (r : ChunkReader) (size : ℕ) (fetched : ℕ → Except KeyspaceError Bytes) (room window : ℕ) (order : List ℕ)
    (position n : ℕ) : Kept r (r.nextChunk size fetched room window n order position).2.1 ∧
    r.Waits (r.nextChunk size fetched room window n order position).1 (r.nextChunk size fetched room window n order position).2.1 := by
  induction n generalizing r order with
  | zero => exact ⟨.rfl, le_rfl, nofun⟩
  | succ n ih =>
    unfold ChunkReader.nextChunk
    split
    · next chunk _ =>
      dsimp only
      split
      · obtain ⟨hk, ho⟩ := ih
          { r with ready := r.ready.erase r.currentOrdinal, currentOrdinal := r.currentOrdinal + 1 } order
        exact ⟨⟨hk.key, hk.entries, hk.last, hk.next⟩, ho⟩
      · obtain ⟨hk, ho⟩ := kept_yield { r with ready := r.ready.erase r.currentOrdinal } chunk
          (position - r.currentOrdinal * size) (min (min (chunk.length - (position - r.currentOrdinal * size)) room) window) position
        exact ⟨⟨hk.key, hk.entries, hk.last, hk.next⟩, ho.le, nofun⟩
    · split
      · exact ⟨.rfl, le_rfl, nofun⟩
      · cases order with
        | nil => exact ⟨.rfl, le_rfl, nofun⟩
        | cons ordinal order =>
          dsimp only
          split
          · next hi =>
            have hlen : (r.inFlight.erase ordinal).length + 1 = r.inFlight.length := List.length_erase_add_one hi
            cases fetched ordinal with
            | error e =>
              dsimp only
              refine ⟨⟨.refl _, .refl _, .refl _, le_rfl⟩, ?_, fun _ _ => ?_⟩
              all_goals
                unfold outstanding
                dsimp only
                omega
            | ok chunk =>
              dsimp only
              obtain ⟨hk, hle, hlt⟩ := ih
                { r with inFlight := r.inFlight.erase ordinal, ready := r.ready.insert ordinal chunk } order
              have hless : outstanding { r with inFlight := r.inFlight.erase ordinal, ready := r.ready.insert ordinal chunk } ≤
                  r.outstanding := by
                unfold outstanding
                dsimp only
                omega
              exact ⟨⟨hk.key, hk.entries, hk.last, hk.next⟩, hle.trans hless, fun e he => (hlt e he).trans_le hless⟩
          · exact ih r order

theorem kept_poll (r : ChunkReader) (size : ℕ) (fetched : ℕ → Except KeyspaceError Bytes) (room : ℕ) (order : List ℕ)
    (position stop : ℕ) : Kept r (r.poll size fetched room order position stop).2.1 ∧
    r.Waits (r.poll size fetched room order position stop).1 (r.poll size fetched room order position stop).2.1 := by
  obtain ⟨hk, ho⟩ := kept_refill (r := r) maxInFlightChunks
  unfold ChunkReader.poll
  generalize r.refill maxInFlightChunks = r₁ at hk ho ⊢
  dsimp only
  split
  · split
    · exact ⟨⟨hk.key, hk.entries, hk.last, hk.next⟩, ho.le, nofun⟩
    · next chunk offset _ _ =>
      obtain ⟨hk', ho'⟩ := kept_yield r₁ chunk (min offset chunk.length)
        (min (min offset chunk.length + min room (stop - position)) chunk.length - min offset chunk.length) position
      exact ⟨hk.trans hk', (ho'.trans ho).le, nofun⟩
  · obtain ⟨hk', hle, hlt⟩ := kept_nextChunk r₁ size fetched room (stop - position) order position
      (r₁.ready.entries.length + order.length + 1)
    exact ⟨hk.trans hk', hle.trans ho.le, fun e he => (hlt e he).trans_le ho.le⟩

end

end ChunkReader

/-! ### The chunks of a canonical value -/

section
variable {size start stop n : ℕ}

/-- The chunks a reader fetches are those its window lies in. -/
theorem window_bounds (hs : 0 < size) (hle : start ≤ stop) (hstop : stop ≤ n * size) {last : ℕ}
    (hlast : last = if stop = 0 then 0 else min ((stop - 1) / size + 1) n) :
    start / size ≤ last ∧ last ≤ n ∧ stop ≤ last * size ∧
      ∀ i, start / size ≤ i → i < last → start < stop → ∃ q, start ≤ q ∧ q < stop ∧ q / size = i := by
  by_cases h0 : stop = 0
  · rw [if_pos h0] at hlast
    subst hlast h0
    obtain rfl : start = 0 := Nat.le_zero.1 hle
    exact ⟨by rw [Nat.zero_div], Nat.zero_le _, Nat.zero_le _, nofun⟩
  · rw [if_neg h0] at hlast
    have hover : stop ≤ ((stop - 1) / size + 1) * size := by
      have := Nat.lt_div_mul_add hs (a := stop - 1)
      rw [Nat.succ_mul]
      omega
    have hall : stop ≤ last * size := by
      rw [hlast]
      rcases min_choice ((stop - 1) / size + 1) n with hm | hm
      · rw [hm]
        exact hover
      · rw [hm]
        exact hstop
    have hup : start / size ≤ last := Nat.div_le_of_le_mul (by rw [Nat.mul_comm]; exact hle.trans hall)
    refine ⟨hup, hlast ▸ Nat.min_le_right .., hall, fun i hi hlt hss => ⟨max start (i * size), le_max_left .., ?_, ?_⟩⟩
    · have hi' : i ≤ (stop - 1) / size := Nat.lt_succ_iff.1 (hlt.trans_le (hlast ▸ Nat.min_le_left ..))
      have := (Nat.le_div_iff_mul_le hs).1 hi'
      exact max_lt hss (by omega)
    · have hstart : start < (i + 1) * size := (Nat.div_lt_iff_lt_mul hs).1 (Nat.lt_succ_of_le hi)
      refine Nat.div_eq_of_lt_le (le_max_right ..) (max_lt hstart ?_)
      exact Nat.mul_lt_mul_of_pos_right (Nat.lt_succ_self i) hs

end

/-- The length of a chunk of a canonical table is what its place in the value leaves. -/
theorem CanonicalTable.encodedLen {entries : List ManifestEntry} (h : CanonicalTable entries) {i : ℕ} {e : ManifestEntry}
    (he : entries[i]? = some e) : e.encodedLen = min chunkBytes ((entries.map (·.encodedLen)).sum - i * chunkBytes) := by
  induction entries generalizing i with
  | nil => cases he
  | cons f rest ih =>
    obtain ⟨hf, hrest⟩ := canonicalTable_cons.1 h
    cases i with
    | zero =>
      obtain rfl : f = e := by simpa using he
      rw [List.map_cons, List.sum_cons, Nat.zero_mul, Nat.sub_zero]
      cases rest with
      | nil =>
        rw [List.map_nil, List.sum_nil, Nat.add_zero, min_eq_right hf.le]
      | cons g rest =>
        have hfull : f.encodedLen = chunkBytes := hf
        rw [hfull, min_eq_left (Nat.le_add_right ..)]
    | succ i =>
      rw [List.getElem?_cons_succ] at he
      cases rest with
      | nil => cases he
      | cons g rest =>
        have hfull : f.encodedLen = chunkBytes := hf
        rw [ih hrest he, List.map_cons (a := f), List.sum_cons (a := f.encodedLen), hfull, Nat.succ_mul, Nat.add_comm (i * chunkBytes),
          Nat.add_sub_add_left]

/-! ### Opened readers -/

/-- A chunked reader that keeps its invariant, of a value `len` long. -/
structure ValueReader.Ok (O : Outside) (answers : ℕ → Except StoreError (Bytes × Option Etag)) (first len : ℕ) (r : ValueReader)
    (c : ChunkReader) : Prop where
  source : r.source = .chunked c
  reader : c.Ok chunkBytes (c.fetched O answers) first r.position r.stop
  lengths : ChunkReader.Lengths chunkBytes (c.fetched O answers) len
  position_le : r.position ≤ r.stop
  stop_le : r.stop ≤ len

/-- What `open_stream_window` binds of a manifest. -/
structure ValueReader.Opened (key : Str) (m : ValueManifest) (r : ValueReader) (c : ChunkReader) : Prop where
  source : r.source = .chunked c
  fresh : c = {
    key := key
    incarnation := m.incarnation
    version := m.version
    entries := m.entries
    nextFetch := r.position / chunkBytes
    lastFetch := c.lastFetch
    currentOrdinal := r.position / chunkBytes }
  last : c.lastFetch = if r.stop = 0 then 0 else min ((r.stop - 1) / chunkBytes + 1) m.entries.length
  position_le : r.position ≤ r.stop
  stop_le : r.stop ≤ m.logicalLen

section
variable {O : Outside} {answers : ℕ → Except StoreError (Bytes × Option Etag)} {first len : ℕ} {r : ValueReader} {c : ChunkReader}
  {key : Str} {m : ValueManifest} {etag : Etag} {range : Option (ℕ × ℕ)}

theorem ValueManifest.Canonical.len_le (hm : m.Canonical O) : m.logicalLen ≤ m.entries.length * Keyspace.chunkBytes := by
  rw [← hm.sum, Nat.mul_comm]
  exact hm.table.sum_le

theorem ValueReader.opened_of (hm : m.Canonical O) (h : ValueReader.of key etag (.chunked m) range = .ok r) :
    ∃ c, r.Opened key m c ∧ (range.getD (0, m.logicalLen)) = (r.position, r.stop) := by
  unfold ValueReader.of at h
  dsimp only at h
  have hlen := hm.len_le
  have hle : (range.isSome ∧ ((range.getD (0, m.logicalLen)).2 < (range.getD (0, m.logicalLen)).1 ∨
      m.logicalLen < (range.getD (0, m.logicalLen)).2)) ∨
      (range.getD (0, m.logicalLen)).1 ≤ (range.getD (0, m.logicalLen)).2 ∧ (range.getD (0, m.logicalLen)).2 ≤ m.logicalLen := by
    cases range with
    | none => exact .inr ⟨Nat.zero_le _, le_rfl⟩
    | some w =>
      simp only [Option.getD_some, Option.isSome_some, true_and]
      omega
  generalize range.getD (0, m.logicalLen) = w at h hle ⊢
  obtain ⟨start, stop⟩ := w
  dsimp only at h hle
  rcases hle with hbad | ⟨hse, hsl⟩
  · rw [if_pos hbad] at h
    cases h
  · rw [if_neg (by omega)] at h
    obtain rfl := Except.ok.inj h
    have hfirst : min (start / Keyspace.chunkBytes) 4294967295 = start / Keyspace.chunkBytes := by
      refine min_eq_left ?_
      have hn : start / Keyspace.chunkBytes ≤ m.entries.length :=
        Nat.div_le_of_le_mul (by rw [Nat.mul_comm]; exact (hse.trans hsl).trans hlen)
      exact hn.trans (hm.atMost.trans (by decide))
    refine ⟨_, ⟨rfl, ?_, rfl, hse, hsl⟩, rfl⟩
    rw [hfirst]

theorem ValueReader.Opened.bounds (ho : r.Opened key m c) (hm : m.Canonical O) :
    r.position / Keyspace.chunkBytes ≤ c.lastFetch ∧ c.lastFetch ≤ m.entries.length ∧ r.stop ≤ c.lastFetch * Keyspace.chunkBytes ∧
      ∀ i, r.position / Keyspace.chunkBytes ≤ i → i < c.lastFetch → r.position < r.stop →
        ∃ q, r.position ≤ q ∧ q < r.stop ∧ q / Keyspace.chunkBytes = i :=
  window_bounds (by decide) ho.position_le (ho.stop_le.trans hm.len_le) ho.last

/-- A chunk of the manifest arrives: it is there, of its length and with its digest. -/
def ValueManifest.Arrives (O : Outside) (m : ValueManifest) (key : Str) (answers : ℕ → Except StoreError (Bytes × Option Etag))
    (i : ℕ) : Prop :=
  ∃ entry chunk, m.entries[i]? = some entry ∧ fetchedChunk O key entry i (answers i) = .ok chunk

theorem ValueReader.Opened.fetched_ok (ho : r.Opened key m c) {i : ℕ} {chunk : Bytes} :
    c.fetched O answers i = .ok chunk ↔ ∃ entry, m.entries[i]? = some entry ∧ fetchedChunk O key entry i (answers i) = .ok chunk := by
  rw [ho.fresh, ChunkReader.fetched]
  dsimp only
  cases m.entries[i]? with
  | none => simp
  | some entry => simp

theorem ValueReader.Opened.arrives (ho : r.Opened key m c) {i : ℕ} :
    (∃ chunk, c.fetched O answers i = .ok chunk) ↔ m.Arrives O key answers i := by
  unfold ValueManifest.Arrives
  simp only [ho.fetched_ok]
  rw [exists_comm]

theorem fetchedChunk_ok {entry : ManifestEntry} {i : ℕ} {answer : Except StoreError (Bytes × Option Etag)} {chunk : Bytes} :
    fetchedChunk O key entry i answer = .ok chunk ↔
      (∃ e, answer = .ok (chunk, e)) ∧ chunk.length = entry.encodedLen ∧ O.sha256 chunk = entry.sha256 := by
  unfold fetchedChunk
  split
  · next bytes e =>
    split
    · next hbad =>
      refine ⟨nofun, ?_⟩
      rintro ⟨⟨e', he⟩, hl, hs⟩
      cases he
      exact absurd hbad (by rw [hl, hs]; simp)
    · next hgood =>
      rw [not_or, not_not, not_not] at hgood
      constructor
      · rintro ⟨⟩
        exact ⟨⟨e, rfl⟩, hgood⟩
      · rintro ⟨⟨e', he⟩, -⟩
        cases he
        rfl
  · exact ⟨nofun, fun ⟨⟨_, h⟩, _⟩ => by cases h⟩
  · exact ⟨nofun, fun ⟨⟨_, h⟩, _⟩ => by cases h⟩

/-- A reader that was just opened has asked for nothing. -/
theorem ValueReader.Opened.ok (ho : r.Opened key m c) (hm : m.Canonical O) (answers : ℕ → Except StoreError (Bytes × Option Etag)) :
    r.Ok O answers (r.position / Keyspace.chunkBytes) m.logicalLen c ∧ c.Whole := by
  obtain ⟨hup, -, hall, -⟩ := ho.bounds hm
  have hlengths : ChunkReader.Lengths Keyspace.chunkBytes (c.fetched O answers) m.logicalLen := by
    intro i chunk hc
    obtain ⟨entry, he, hc⟩ := ho.fetched_ok.1 hc
    rw [(fetchedChunk_ok.1 hc).2.1, hm.table.encodedLen he, hm.sum]
  have hheld : c.held = [] := by rw [ho.fresh]; rfl
  have hnext : c.nextFetch = r.position / Keyspace.chunkBytes := by rw [ho.fresh]
  have hcur : c.currentOrdinal = r.position / Keyspace.chunkBytes := by rw [ho.fresh]
  refine ⟨⟨ho.source, ⟨by decide, ?_, ?_, ?_, ?_, ?_, ?_, hall, ?_, ?_, ?_, ?_⟩, hlengths, ho.position_le, ho.stop_le⟩, fun i hi hlt => ?_⟩
  · rw [hheld]
    exact List.nodup_nil
  · rw [hheld]
    exact nofun
  · rw [hheld]
    exact nofun
  · exact hcur.ge
  · rw [hcur, hnext]
  · rw [hnext]
    exact hup
  · rw [ho.fresh]
    exact Nat.zero_le _
  · intro i chunk hl
    rw [ho.fresh] at hl
    cases hl
  · intro chunk offset hl
    rw [ho.fresh] at hl
    cases hl
  · intro _
    exact hcur.symm
  · rw [hcur] at hi
    rw [hnext] at hlt
    omega

/-! ### Runs of polls -/

/-- A poll that has nothing to do. -/
theorem ValueReader.poll_idle {p : Poll} (h : r.stop ≤ r.position ∨ p.room = 0) : r.poll O answers p = (.ready [], r) := if_pos h

theorem ValueReader.poll_chunked (hs : r.source = .chunked c) {p : Poll} (hlt : r.position < r.stop) (hroom : 0 < p.room) :
    r.poll O answers p = ((c.poll chunkBytes (c.fetched O answers) p.room p.order r.position r.stop).1,
      { r with
        source := .chunked (c.poll chunkBytes (c.fetched O answers) p.room p.order r.position r.stop).2.1
        position := (c.poll chunkBytes (c.fetched O answers) p.room p.order r.position r.stop).2.2 }) := by
  unfold ValueReader.poll
  rw [if_neg (by omega), hs]

/-- One poll of a chunked reader before the end of its window. -/
theorem ValueReader.Ok.poll (h : r.Ok O answers first len c) {p : Poll} (hlt : r.position < r.stop) (hroom : 0 < p.room) :
    ∃ c', (r.poll O answers p).2.Ok O answers first len c' ∧ c.Kept c' ∧ c.Waits (r.poll O answers p).1 c' ∧
      (r.poll O answers p).2.stop = r.stop ∧
      ChunkReader.PollOk chunkBytes (c.fetched O answers) p.room p.order c r.position r.stop c' (r.poll O answers p).2.position
        (r.poll O answers p).1 := by
  obtain ⟨hok, hpoll⟩ := h.reader.poll h.lengths h.stop_le hlt hroom p.order
  obtain ⟨hk, hw⟩ := c.kept_poll chunkBytes (c.fetched O answers) p.room p.order r.position r.stop
  rw [ValueReader.poll_chunked h.source hlt hroom]
  generalize c.poll chunkBytes (c.fetched O answers) p.room p.order r.position r.stop = out at *
  obtain ⟨polled, c', position'⟩ := out
  dsimp only at *
  have hf := hk.fetched_eq (O := O)
  refine ⟨c', ⟨rfl, ?_, ?_, ?_, h.stop_le⟩, hk, hw, rfl, hpoll⟩
  · rw [hf]
    exact hok
  · rw [hf]
    exact h.lengths
  · dsimp only
    cases hpoll with
    | bytes _ _ _ _ _ _ hstop _ => exact hstop
    | ended hpos _ => exact hpos ▸ h.position_le
    | wait hpos _ _ _ => exact hpos ▸ h.position_le
    | failed hpos _ _ _ => exact hpos ▸ h.position_le

/-! ### The end of the window -/

/-- A poll that returned no error keeps what was asked for. -/
theorem ValueReader.Ok.poll_whole (h : r.Ok O answers first len c) (hw : c.Whole) (p : Poll) (hno : ∀ e, (r.poll O answers p).1 ≠ .error e) :
    ∃ c', (r.poll O answers p).2.Ok O answers first len c' ∧ c'.Whole ∧ c.Kept c' := by
  by_cases hidle : r.stop ≤ r.position ∨ p.room = 0
  · rw [ValueReader.poll_idle hidle]
    exact ⟨c, h, hw, .rfl⟩
  · obtain ⟨c', hok, hk, -, -, hpoll⟩ := h.poll (p := p) (by omega) (by omega)
    refine ⟨c', hok, ?_, hk⟩
    generalize (r.poll O answers p).1 = polled at hpoll hno
    cases hpoll with
    | bytes _ _ _ _ _ _ _ hw' => exact hw' hw
    | ended _ hlost => exact absurd hw hlost
    | wait _ _ _ hw' => exact hw' hw
    | failed => exact absurd rfl (hno _)

theorem ValueReader.Ok.polls_whole {ps : List Poll} (h : r.Ok O answers first len c) (hw : c.Whole)
    (hno : ∀ e, .error e ∉ (r.polls O answers ps).1) :
    ∃ c', (r.polls O answers ps).2.Ok O answers first len c' ∧ c'.Whole ∧ c.Kept c' := by
  induction ps generalizing r c with
  | nil => exact ⟨c, h, hw, .rfl⟩
  | cons p ps ih =>
    have hfirst : ∀ e, (r.poll O answers p).1 ≠ .error e := fun e he => hno e (he ▸ List.mem_cons_self)
    obtain ⟨c₁, hok, hw₁, hk⟩ := h.poll_whole hw p hfirst
    obtain ⟨c₂, hok₂, hw₂, hk₂⟩ := ih hok hw₁ fun e he => hno e (List.mem_cons_of_mem _ he)
    exact ⟨c₂, hok₂, hw₂, hk.trans hk₂⟩

/-- A reader that lost nothing reports the end at the end. -/
theorem ValueReader.Ok.ends (h : r.Ok O answers first len c) (hw : c.Whole) {p : Poll} (hroom : 0 < p.room)
    (hend : (r.poll O answers p).1 = .ready []) : r.stop ≤ r.position := by
  by_contra hlt
  obtain ⟨c', -, -, -, -, hpoll⟩ := h.poll (p := p) (by omega) hroom
  rw [hend] at hpoll
  generalize hout : Polled.ready [] = polled at hpoll
  cases hpoll with
  | bytes hne =>
    cases hout
    exact hne rfl
  | ended _ hlost => exact hlost hw
  | wait => cases hout
  | failed => cases hout

/-- Every end a reader reports, after any polls, is the end of its window. -/
def ValueReader.EndsAtEnd (O : Outside) (answers : ℕ → Except StoreError (Bytes × Option Etag)) (r : ValueReader) : Prop :=
  ∀ ps p, 0 < p.room → ((r.polls O answers ps).2.poll O answers p).1 = .ready [] →
    (r.polls O answers ps).2.stop ≤ (r.polls O answers ps).2.position

theorem ValueReader.EndsAtEnd.poll (h : r.EndsAtEnd O answers) (p : Poll) : (r.poll O answers p).2.EndsAtEnd O answers :=
  fun ps => h (p :: ps)

/-- A reader that is polled on to the end of its window has had every chunk of it. -/
theorem ValueReader.Ok.all_fetched (h : r.Ok O answers first len c) (he : r.EndsAtEnd O answers) {n : ℕ}
    (hn : r.stop - r.position + c.outstanding ≤ n) :
    ∀ q, r.position ≤ q → q < r.stop → ∃ chunk, c.fetched O answers (q / chunkBytes) = .ok chunk := by
  induction n generalizing r c with
  | zero =>
    intro q hq hlt
    omega
  | succ n ih =>
    intro q hq hlt
    -- a poll of one byte during which every fetch completes
    let p : Poll := ⟨1, List.range c.lastFetch⟩
    obtain ⟨c', hok, hk, hwaits, hstop, hpoll⟩ := h.poll (p := p) (hq.trans_lt hlt) Nat.one_pos
    have hnext : ∀ q, (r.poll O answers p).2.position ≤ q → q < r.stop →
        (r.poll O answers p).2.stop - (r.poll O answers p).2.position + c'.outstanding ≤ n →
        ∃ chunk, c.fetched O answers (q / chunkBytes) = .ok chunk := by
      intro q hq hlt hle
      rw [← hk.fetched_eq]
      exact ih hok (he.poll p) hle q hq (hstop ▸ hlt)
    have hend : (r.poll O answers p).1 = .ready [] → r.stop ≤ r.position := he [] p Nat.one_pos
    generalize (r.poll O answers p).1 = polled at hpoll hwaits hend
    obtain ⟨hle, hless⟩ := hwaits
    cases hpoll with
    | @bytes out chunk hne hroom hc _ _ hpos _ _ =>
      have hone : out.length = 1 := Nat.le_antisymm hroom (List.length_pos_iff.2 hne)
      rcases Nat.eq_or_lt_of_le hq with rfl | hq
      · exact ⟨chunk, hc⟩
      · exact hnext q (by omega) hlt (by omega)
    | ended =>
      exact absurd (hq.trans_lt hlt) (Nat.not_lt.2 (hend rfl))
    | @wait i _ hi hn _ =>
      have hheld : i ∈ c'.held := ChunkReader.mem_held.2 (.inl hi)
      have hbound := (hok.reader.held_lt i hheld).trans_le hok.reader.next_le
      rw [hk.last] at hbound
      exact absurd (List.mem_range.2 hbound) hn
    | failed hpos =>
      have hless := hless _ rfl
      exact hnext q (by omega) hlt (by omega)

/-- If every chunk of the window arrives, no poll fails. -/
theorem ValueReader.Ok.no_error (h : r.Ok O answers first len c)
    (hall : ∀ i, first ≤ i → i < c.lastFetch → r.position < r.stop → ∃ chunk, c.fetched O answers i = .ok chunk) (p : Poll) (e : KeyspaceError) :
    (r.poll O answers p).1 ≠ .error e := by
  intro he
  by_cases hidle : r.stop ≤ r.position ∨ p.room = 0
  · rw [ValueReader.poll_idle hidle] at he
    cases he
  · obtain ⟨c', -, -, -, -, hpoll⟩ := h.poll (p := p) (by omega) (by omega)
    rw [he] at hpoll
    generalize hout : Polled.error e = polled at hpoll
    cases hpoll with
    | bytes => cases hout
    | ended => cases hout
    | wait => cases hout
    | failed _ hi hlt hf =>
      obtain ⟨chunk, hc⟩ := hall _ (h.reader.first_le.trans hi) hlt (by omega)
      rw [hf] at hc
      cases hc

theorem ValueReader.Ok.no_errors {ps : List Poll} (h : r.Ok O answers first len c) (hw : c.Whole)
    (hall : ∀ i, first ≤ i → i < c.lastFetch → r.position < r.stop → ∃ chunk, c.fetched O answers i = .ok chunk) (e : KeyspaceError) :
    .error e ∉ (r.polls O answers ps).1 := by
  induction ps generalizing r c with
  | nil => exact List.not_mem_nil
  | cons p ps ih =>
    intro hm
    rcases List.mem_cons.1 hm with he | hm
    · exact h.no_error hall p e he.symm
    · obtain ⟨c', hok, hw', hk⟩ := h.poll_whole hw p (h.no_error hall p)
      refine ih hok hw' (fun i hi hlt hbefore => ?_) hm
      rw [hk.fetched_eq]
      refine hall i hi (hk.last ▸ hlt) ?_
      by_contra hover
      rw [ValueReader.poll_idle (.inl (by omega))] at hbefore
      exact hover hbefore

/-- A reader reports the end of its window early exactly if a chunk of it does not arrive, and not before a poll has failed. -/
theorem ends_at_end_iff {bs : Bytes} (hd : ControlEnvelope.decode O key bs = .ok (.chunked m))
    (hr : ValueReader.of key etag (.chunked m) range = .ok r) :
    (∀ ps p, (∀ e, .error e ∉ (r.polls O answers ps).1) → 0 < p.room →
      ((r.polls O answers ps).2.poll O answers p).1 = .ready [] →
      (r.polls O answers ps).2.stop ≤ (r.polls O answers ps).2.position) ∧
    (r.EndsAtEnd O answers ↔
      ∀ q, r.position ≤ q → q < r.stop → m.Arrives O key answers (q / Keyspace.chunkBytes)) := by
  obtain ⟨hm, -⟩ := ControlEnvelope.decode_chunked.1 hd
  obtain ⟨c, ho, -⟩ := ValueReader.opened_of hm hr
  obtain ⟨h, hw⟩ := ho.ok hm answers
  have hbefore : ∀ ps p, (∀ e, .error e ∉ (r.polls O answers ps).1) → 0 < p.room →
      ((r.polls O answers ps).2.poll O answers p).1 = .ready [] →
      (r.polls O answers ps).2.stop ≤ (r.polls O answers ps).2.position := by
    intro ps p hno hroom hend
    obtain ⟨c', hok, hw', -⟩ := h.polls_whole hw hno
    exact hok.ends hw' hroom hend
  refine ⟨hbefore, fun he q hq hlt => ?_, fun hall ps p hroom hend => ?_⟩
  · exact ho.arrives.1 (h.all_fetched he le_rfl q hq hlt)
  · refine hbefore ps p (fun e => h.no_errors hw (fun i hi hlt hlt' => ?_) e) hroom hend
    obtain ⟨q, hq, hq', rfl⟩ := (ho.bounds hm).2.2.2 i hi hlt hlt'
    exact ho.arrives.2 (hall q hq hq')

end

/-- SHA-256, and no tombstones. -/
def plainOutside : Outside := ⟨Sha256.digest, fun _ => [], fun _ => none⟩

/-- The manifest of a value of `n` full chunks of zeros. -/
def zerosManifest (n : ℕ) : ValueManifest :=
  manifestOf plainOutside 0 0 (List.replicate 16 0) (chunkBytes * n)
    ((List.replicate n (List.replicate chunkBytes 0)).map (hashEntry plainOutside))

theorem zerosManifest_decode {n : ℕ} (hmin : minChunks ≤ n) (hmax : n ≤ maxChunks) (key : Str) :
    ControlEnvelope.decode plainOutside key (zerosManifest n).encode = .ok (.chunked (zerosManifest n)) := by
  have hfull : ∀ c ∈ List.replicate n (List.replicate chunkBytes (0 : UInt8)), c.length = chunkBytes := by
    intro c hc
    rw [List.eq_of_mem_replicate hc, List.length_replicate]
  have hentries := encodedLen_map (O := plainOutside) hfull
  refine ControlEnvelope.decode_chunked.2 ⟨manifestOf_canonical Sha256.digest_length (List.length_replicate ..)
    (digests_map Sha256.digest_length _) ?_ ?_ (canonicalTable_full hentries) ?_, rfl⟩
  · rwa [List.length_map, List.length_replicate]
  · rwa [List.length_map, List.length_replicate]
  · rw [sum_full hentries, List.length_map, List.length_replicate]

theorem zerosManifest_getElem? {n i : ℕ} (hi : i < n) :
    (zerosManifest n).entries[i]? = some (hashEntry plainOutside (List.replicate chunkBytes 0)) := by
  unfold zerosManifest manifestOf
  rw [List.getElem?_map, List.getElem?_replicate, if_pos hi]
  rfl

theorem zerosManifest_arrives {n i : ℕ} (hi : i < n) (key : Str) :
    (zerosManifest n).Arrives plainOutside key (fun _ => .ok (List.replicate chunkBytes 0, none)) i :=
  ⟨_, _, zerosManifest_getElem? hi, fetchedChunk_ok.2 ⟨⟨none, rfl⟩, rfl, rfl⟩⟩

/-- The reader of the first byte of two chunks of zeros, both of which arrive. -/
theorem ends_at_end_zeros : ∃ r, ValueReader.of "k".toList "e".toList (.chunked (zerosManifest 2)) (some (0, 1)) = .ok r ∧
    r.EndsAtEnd plainOutside fun _ => .ok (List.replicate chunkBytes 0, none) := by
  refine ⟨_, rfl, (@ends_at_end_iff _ _ _ _ _ "e".toList (some (0, 1)) _
    (zerosManifest_decode (n := 2) (by decide) (by decide) "k".toList) rfl).2.2 fun q _ hq => ?_⟩
  have hq : q < 1 := hq
  obtain rfl : q = 0 := by omega
  rw [Nat.zero_div]
  exact zerosManifest_arrives Nat.two_pos "k".toList

/-- A chunk that is gone fails the first poll, and the second reports the end of the value. -/
theorem ends_early : ∃ r,
    ControlEnvelope.decode plainOutside "k".toList (zerosManifest 2).encode = .ok (.chunked (zerosManifest 2)) ∧
    ValueReader.of "k".toList "e".toList (.chunked (zerosManifest 2)) (some (0, 1)) = .ok r ∧
    ¬ r.EndsAtEnd plainOutside fun _ => .error .notFound := by
  refine ⟨_, zerosManifest_decode (by decide) (by decide) _, rfl, fun h => ?_⟩
  have hend := h [⟨1, [0]⟩] ⟨1, []⟩ Nat.one_pos (by decide +kernel)
  exact absurd hend (by decide +kernel)

/-! ### The chunks a reader holds -/

/-- The chunks a reader has in flight, ready or half drained. -/
def ValueReader.held (r : ValueReader) : List ℕ :=
  match r.source with
  | .inline _ => []
  | .chunked c => c.held

section
variable {O : Outside} {answers : ℕ → Except StoreError (Bytes × Option Etag)} {first len : ℕ} {r : ValueReader} {c : ChunkReader}
  {key : Str} {m : ValueManifest} {etag : Etag} {range : Option (ℕ × ℕ)}

theorem ValueReader.Ok.polls (h : r.Ok O answers first len c) (ps : List Poll) :
    ∃ c', (r.polls O answers ps).2.Ok O answers first len c' ∧ c.Kept c' := by
  induction ps generalizing r c with
  | nil => exact ⟨c, h, .rfl⟩
  | cons p ps ih =>
    have hstep : ∃ c', (r.poll O answers p).2.Ok O answers first len c' ∧ c.Kept c' := by
      by_cases hidle : r.stop ≤ r.position ∨ p.room = 0
      · rw [ValueReader.poll_idle hidle]
        exact ⟨c, h, .rfl⟩
      · obtain ⟨c', hok, hk, -⟩ := h.poll (p := p) (by omega) (by omega)
        exact ⟨c', hok, hk⟩
    obtain ⟨c₁, hok, hk⟩ := hstep
    obtain ⟨c₂, hok₂, hk₂⟩ := ih hok
    exact ⟨c₂, hok₂, hk.trans hk₂⟩

namespace ChunkReader

section
variable {fetched : ℕ → Except KeyspaceError Bytes} {size room window n ordinal position stop : ℕ} {order : List ℕ} {chunk : Bytes}
  {c : ChunkReader}

theorem nextChunk_arrive (hn : c.ready.lookup c.currentOrdinal = none) (hi : ordinal ∈ c.inFlight) (hc : fetched ordinal = .ok chunk) :
    c.nextChunk size fetched room window (n + 1) (ordinal :: order) position =
      nextChunk size fetched room window n order
        { c with inFlight := c.inFlight.erase ordinal, ready := c.ready.insert ordinal chunk } position := by
  rw [nextChunk, hn]
  dsimp only
  rw [if_neg (List.ne_nil_of_mem hi), if_pos hi, hc]

theorem nextChunk_wait (hn : c.ready.lookup c.currentOrdinal = none) (hi : c.inFlight ≠ []) :
    c.nextChunk size fetched room window (n + 1) [] position = (.pending, c, position) := by
  rw [nextChunk, hn]
  dsimp only
  rw [if_neg hi]

/-- With one fetch in flight and three chunks behind it waiting, a poll starts two fetches more at least. -/
theorem held_refill (hin : c.inFlight.length = 1) (hkeys : c.ready.keys.length = 3) (hn : c.ready.lookup c.currentOrdinal = none)
    (hnone : c.current = none) (hmore : c.nextFetch + 1 < c.lastFetch) :
    ∃ c', c.poll size fetched room [] position stop = (.pending, c', position) ∧ 6 ≤ c'.held.length := by
  have hfour : maxInFlightChunks = 4 := rfl
  have hsame := refilled (r := c) maxInFlightChunks (by omega) (by omega)
  have hout := (kept_refill (r := c) maxInFlightChunks).2
  unfold outstanding at hout
  have hflight : 3 ≤ (c.refill maxInFlightChunks).inFlight.length := by
    have hfull := hsame.full
    have hl := hsame.last
    omega
  refine ⟨c.refill maxInFlightChunks, ?_, ?_⟩
  · unfold poll
    dsimp only
    rw [hsame.current, hnone]
    exact nextChunk_wait (by rwa [hsame.ready, hsame.ordinal]) (List.ne_nil_of_length_pos (by omega))
  · unfold held
    rw [List.length_append, List.length_append, hsame.ready, hkeys]
    omega

/-- The fetches behind the first chunk of a window complete before it, and the next poll starts as many again. -/
theorem held_over (fetched : ℕ → Except KeyspaceError Bytes) (size position stop : ℕ) (hnext : c.nextFetch = c.currentOrdinal) (hin : c.inFlight = []) (hready : c.ready = ∅) (hnone : c.current = none)
    (hlast : c.currentOrdinal + 6 ≤ c.lastFetch)
    (hall : ∀ i, c.currentOrdinal ≤ i → i < c.lastFetch → ∃ chunk, fetched i = .ok chunk) :
    ∃ c', c.poll size fetched 1 [c.currentOrdinal + 1, c.currentOrdinal + 2, c.currentOrdinal + 3] position stop =
        (.pending, c', position) ∧
      ∃ c'', c'.poll size fetched 1 [] position stop = (.pending, c'', position) ∧ 6 ≤ c''.held.length := by
  obtain ⟨key, incarnation, version, entries, nextFetch, lastFetch, inFlight, ready, current, f⟩ := c
  dsimp only at *
  subst nextFetch inFlight current
  obtain ⟨c₁, h₁⟩ := hall (f + 1) (by omega) (by omega)
  obtain ⟨c₂, h₂⟩ := hall (f + 2) (by omega) (by omega)
  obtain ⟨c₃, h₃⟩ := hall (f + 3) (by omega) (by omega)
  have hnew : ∀ {ready : AList fun _ : ℕ => Bytes} (i : ℕ) (chunk : Bytes), ready.lookup f = none → f < i →
      (ready.insert i chunk).lookup f = none := fun i chunk h hi => by rwa [AList.lookup_insert_ne (by omega)]
  have hready₀ : ready.lookup f = none := by
    rw [hready]
    rfl
  have hready₁ := hnew (f + 1) c₁ hready₀ (by omega)
  have hready₂ := hnew (f + 2) c₂ hready₁ (by omega)
  have hready₃ := hnew (f + 3) c₃ hready₂ (by omega)
  have hlt : ∀ k, k < 6 → f + k < lastFetch := fun k hk => by omega
  have h0 : f < lastFetch := hlt 0 (by decide)
  -- the window: four fetches, of which the last three complete
  refine ⟨⟨key, incarnation, version, entries, f + 4, lastFetch, [f],
    ((ready.insert (f + 1) c₁).insert (f + 2) c₂).insert (f + 3) c₃, none, f⟩, ?_, ?_⟩
  · unfold poll
    simp only [refill, maxInFlightChunks, List.length_nil, List.length_cons, List.nil_append, List.cons_append, h0, hlt 1 (by decide),
      hlt 2 (by decide), hlt 3 (by decide), Nat.add_assoc, and_self, if_true, Nat.reduceAdd, Nat.reduceLT]
    refine (nextChunk_arrive (n := ready.entries.length + 3) hready₀ ?_ h₁).trans ((nextChunk_arrive hready₁ ?_ h₂).trans
      ((nextChunk_arrive hready₂ ?_ h₃).trans ((nextChunk_wait hready₃ ?_).trans ?_)))
    all_goals simp
  · refine held_refill rfl ?_ hready₃ rfl (hlt 5 (by decide))
    subst hready
    simp [AList.keys_insert]

end

end ChunkReader

/-- A reader of more than five chunks, all of which arrive, comes to hold more than five. -/
theorem ValueReader.Opened.held_over (ho : r.Opened key m c) (hm : m.Canonical O)
    (harrives : ∀ i, i < m.entries.length → m.Arrives O key answers i)
    (hover : r.position / Keyspace.chunkBytes + maxInFlightChunks < (r.stop - 1) / Keyspace.chunkBytes) :
    ∃ ps, maxInFlightChunks + 1 < (r.polls O answers ps).2.held.length := by
  obtain ⟨-, hn, hall, -⟩ := ho.bounds hm
  have hlt : r.position < r.stop := by
    by_contra hge
    have hdiv : (r.stop - 1) / Keyspace.chunkBytes ≤ r.position / Keyspace.chunkBytes := Nat.div_le_div_right (by omega)
    omega
  have hnext : c.nextFetch = r.position / Keyspace.chunkBytes := by rw [ho.fresh]
  have hcur : c.currentOrdinal = r.position / Keyspace.chunkBytes := by rw [ho.fresh]
  have hsix : c.currentOrdinal + 6 ≤ c.lastFetch := by
    have hbelow : (r.stop - 1) / Keyspace.chunkBytes < c.lastFetch := by
      rw [Nat.div_lt_iff_lt_mul (by decide)]
      omega
    have hfour : maxInFlightChunks = 4 := rfl
    omega
  obtain ⟨c', h', c'', h'', hheld⟩ := ChunkReader.held_over (c.fetched O answers) Keyspace.chunkBytes r.position r.stop
    (hnext.trans hcur.symm) (by rw [ho.fresh]) (by rw [ho.fresh]) (by rw [ho.fresh]) hsix
    fun i _ hi => ho.arrives.2 (harrives i (hi.trans_le hn))
  have hf : c'.fetched O answers = c.fetched O answers := by
    have hk := (c.kept_poll Keyspace.chunkBytes (c.fetched O answers) 1
      [c.currentOrdinal + 1, c.currentOrdinal + 2, c.currentOrdinal + 3] r.position r.stop).1
    rw [h'] at hk
    rw [hk.fetched_eq]
  have hfirst : r.poll O answers ⟨1, [c.currentOrdinal + 1, c.currentOrdinal + 2, c.currentOrdinal + 3]⟩ =
      (.pending, { r with source := .chunked c' }) := by
    rw [ValueReader.poll_chunked (p := ⟨1, _⟩) ho.source hlt Nat.one_pos, h']
  have hsecond : ValueReader.poll O { r with source := .chunked c' } answers ⟨1, []⟩ = (.pending, { r with source := .chunked c'' }) := by
    have heq := @ValueReader.poll_chunked O answers { r with source := .chunked c' } c' rfl ⟨1, []⟩ hlt Nat.one_pos
    dsimp only at heq
    rw [heq, hf, h'']
  refine ⟨[⟨1, [c.currentOrdinal + 1, c.currentOrdinal + 2, c.currentOrdinal + 3]⟩, ⟨1, []⟩], ?_⟩
  simp only [ValueReader.polls, hfirst, hsecond]
  exact hheld

/-- A reader holds at most five chunks, whatever arrives in whatever order, exactly if its window meets at most five. -/
theorem held_bounded_iff {bs : Bytes} (hd : ControlEnvelope.decode O key bs = .ok (.chunked m))
    (hr : ValueReader.of key etag (.chunked m) range = .ok r)
    (hv : ∀ entry ∈ m.entries, ∃ chunk : Bytes, chunk.length = entry.encodedLen ∧ O.sha256 chunk = entry.sha256) :
    (∀ answers ps, (r.polls O answers ps).2.held.length ≤ maxInFlightChunks + 1) ↔
      (r.stop - 1) / Keyspace.chunkBytes ≤ r.position / Keyspace.chunkBytes + maxInFlightChunks := by
  obtain ⟨hm, -⟩ := ControlEnvelope.decode_chunked.1 hd
  obtain ⟨c, ho, -⟩ := ValueReader.opened_of hm hr
  constructor
  · intro hbound
    by_contra hover
    -- the chunks of the value itself arrive
    choose! chunk hchunk using hv
    have harrives : ∀ i, i < m.entries.length → m.Arrives O key (fun i => .ok ((m.entries[i]?).elim [] chunk, none)) i := by
      intro i hi
      refine ⟨m.entries[i], chunk m.entries[i], List.getElem?_eq_getElem hi, fetchedChunk_ok.2 ⟨⟨none, ?_⟩, ?_⟩⟩
      · dsimp only
        rw [List.getElem?_eq_getElem hi]
        rfl
      · exact hchunk _ (List.getElem_mem hi)
    obtain ⟨ps, hps⟩ := ho.held_over hm harrives (Nat.lt_of_not_le hover)
    exact absurd (hbound _ ps) (Nat.not_le.2 hps)
  · intro hle answers ps
    obtain ⟨h, -⟩ := ho.ok hm answers
    obtain ⟨c', hok, hk⟩ := h.polls ps
    have hheld : (r.polls O answers ps).2.held = c'.held := by
      unfold ValueReader.held
      rw [hok.source]
    have hlen := hok.reader.held_length
    rw [hk.last] at hlen
    rw [hheld]
    refine hlen.trans (Nat.sub_le_iff_le_add.2 ?_)
    rw [ho.last]
    split
    · exact Nat.zero_le _
    · exact (Nat.min_le_left ..).trans (by omega)

end

/-- A window of five chunks, from the last byte of the first to the first byte of the last, of six chunks of zeros. -/
theorem held_bounded_zeros : ∃ r,
    ValueReader.of "k".toList "e".toList (.chunked (zerosManifest 6)) (some (chunkBytes - 1, 4 * chunkBytes + 1)) = .ok r ∧
    ∀ answers ps, (r.polls plainOutside answers ps).2.held.length ≤ maxInFlightChunks + 1 := by
  refine ⟨_, rfl, (@held_bounded_iff _ _ _ _ "e".toList (some (chunkBytes - 1, 4 * chunkBytes + 1)) _
    (zerosManifest_decode (n := 6) (by decide) (by decide) "k".toList) rfl fun entry he => ?_).2 (by decide)⟩
  obtain ⟨chunk, -, rfl⟩ := List.mem_map.1 he
  exact ⟨chunk, rfl, rfl⟩

/-- Six chunks of zeros are held at once. -/
theorem held_six : ∃ r,
    ControlEnvelope.decode plainOutside "k".toList (zerosManifest 6).encode = .ok (.chunked (zerosManifest 6)) ∧
    ValueReader.of "k".toList "e".toList (.chunked (zerosManifest 6)) none = .ok r ∧
    ∃ ps, maxInFlightChunks + 1 < (r.polls plainOutside (fun _ => .ok (List.replicate chunkBytes 0, none)) ps).2.held.length := by
  have hd := zerosManifest_decode (n := 6) (by decide) (by decide) "k".toList
  obtain ⟨hm, -⟩ := ControlEnvelope.decode_chunked.1 hd
  have hr : ∃ r, ValueReader.of "k".toList "e".toList (.chunked (zerosManifest 6)) none = .ok r := ⟨_, rfl⟩
  obtain ⟨r, hr⟩ := hr
  obtain ⟨c, ho, hw⟩ := ValueReader.opened_of hm hr
  refine ⟨r, hd, hr, ho.held_over hm (fun i hi => ?_) ?_⟩
  · rw [show (zerosManifest 6).entries.length = 6 from rfl] at hi
    exact zerosManifest_arrives hi _
  · have hstart : r.position = 0 := congrArg Prod.fst hw.symm
    have hstop : r.stop = chunkBytes * 6 := congrArg Prod.snd hw.symm
    rw [hstart, hstop]
    decide

end YeetzS3.Keyspace
