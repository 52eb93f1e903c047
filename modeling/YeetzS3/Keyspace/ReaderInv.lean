import YeetzS3.Keyspace.Reader

/-!
# The invariant of the stream reader

A chunk reader holds the chunks it fetches, those that wait and the one it drains, each once, none before the next in order
and none beyond what it has asked for (`ChunkReader.Ok`). Every poll keeps this, and what it returns is read off in
`PollOk`: the next bytes of the window, or the reason that there are none yet.
-/

namespace YeetzS3.Keyspace

namespace ChunkReader

/-- The ordinals a reader holds: in flight, waiting, and the one being drained. -/
def held (r : ChunkReader) : List ℕ := r.inFlight ++ (r.ready.keys ++ (r.current.map fun _ => r.currentOrdinal).toList)

/-- A chunk that was fetched is as long as its place in a value of length `len` says. -/
def Lengths (size : ℕ) (fetched : ℕ → Except KeyspaceError Bytes) (len : ℕ) : Prop :=
  ∀ i chunk, fetched i = .ok chunk → chunk.length = min size (len - i * size)

/-- The invariant of a reader at `position` of a window that ends at `stop`. -/
structure Ok (size : ℕ) (fetched : ℕ → Except KeyspaceError Bytes) (first : ℕ) (r : ChunkReader) (position stop : ℕ) : Prop where
  size_pos : 0 < size
  nodup : r.held.Nodup
  held_le : ∀ i ∈ r.held, r.currentOrdinal ≤ i
  held_lt : ∀ i ∈ r.held, i < r.nextFetch
  first_le : first ≤ r.currentOrdinal
  ordinal_le : r.currentOrdinal ≤ r.nextFetch
  next_le : r.nextFetch ≤ r.lastFetch
  stop_le : stop ≤ r.lastFetch * size
  flight_le : r.inFlight.length ≤ maxInFlightChunks
  ready : ∀ i chunk, r.ready.lookup i = some chunk → fetched i = .ok chunk
  current : ∀ chunk offset, r.current = some (chunk, offset) → fetched r.currentOrdinal = .ok chunk ∧
    position = r.currentOrdinal * size + offset ∧ offset < chunk.length
  place : position < stop → position / size = r.currentOrdinal

/-- Nothing that was asked for is lost. -/
def Whole (r : ChunkReader) : Prop := ∀ i, r.currentOrdinal ≤ i → i < r.nextFetch → i ∈ r.held

/-- What a poll at `position` returned, and the reader after it. -/
inductive PollOk (size : ℕ) (fetched : ℕ → Except KeyspaceError Bytes) (room : ℕ) (order : List ℕ) (r : ChunkReader) (position stop : ℕ)
    (r' : ChunkReader) (position' : ℕ) : Polled → Prop where
  /-- The next bytes. -/
  | bytes {out chunk : Bytes} (hne : out ≠ []) (hroom : out.length ≤ room) (hc : fetched (position / size) = .ok chunk)
      (hout : out = slice chunk (position % size) out.length) (hfit : position % size + out.length ≤ chunk.length)
      (hpos : position' = position + out.length) (hstop : position' ≤ stop) (hw : r.Whole → r'.Whole) :
      PollOk size fetched room order r position stop r' position' (.ready out)
  /-- Nothing more is fetched, and the next chunk is not here. -/
  | ended (hpos : position' = position) (hlost : ¬ r.Whole) : PollOk size fetched room order r position stop r' position' (.ready [])
  /-- A fetch is waited for. -/
  | wait {i : ℕ} (hpos : position' = position) (hi : i ∈ r'.inFlight) (hn : i ∉ order) (hw : r.Whole → r'.Whole) :
      PollOk size fetched room order r position stop r' position' .pending
  /-- A fetch failed. -/
  | failed {e : KeyspaceError} {i : ℕ} (hpos : position' = position) (hi : r.currentOrdinal ≤ i) (hlt : i < r.lastFetch)
      (hf : fetched i = .error e) : PollOk size fetched room order r position stop r' position' (.error e)

section
variable {fetched : ℕ → Except KeyspaceError Bytes} {r r' : ChunkReader} {size len first position stop room i : ℕ} {order : List ℕ}
  {chunk : Bytes}

/-- What a poll that first made a turn of a loop returned. -/
theorem PollOk.of_turn {r₁ : ChunkReader} {order' : List ℕ} {position' : ℕ} {polled : Polled}
    (hp : PollOk size fetched room order' r₁ position stop r' position' polled) (hw : r.Whole → r₁.Whole)
    (hord : r₁.currentOrdinal = r.currentOrdinal) (hlast : r₁.lastFetch = r.lastFetch)
    (hin : ∀ i ∈ r'.inFlight, i ∈ order → i ∈ order') : PollOk size fetched room order r position stop r' position' polled := by
  cases hp with
  | bytes hne hroom hc hout hfit hpos hstop hw' => exact .bytes hne hroom hc hout hfit hpos hstop (hw' ∘ hw)
  | ended hpos hlost => exact .ended hpos (hlost ∘ hw)
  | wait hpos hi hn hw' => exact .wait hpos hi (fun hm => hn (hin _ hi hm)) (hw' ∘ hw)
  | failed hpos hi hlt hf => exact .failed hpos (hord ▸ hi) (hlast ▸ hlt) hf

theorem mem_held : i ∈ r.held ↔ i ∈ r.inFlight ∨ i ∈ r.ready ∨ r.current.isSome ∧ i = r.currentOrdinal := by
  unfold held
  cases h : r.current with
  | none => simp [AList.mem_keys]
  | some c => simp [AList.mem_keys]

/-- A reader holds no more chunks than its window has. -/
theorem Ok.held_length (h : Ok size fetched first r position stop) : r.held.length ≤ r.lastFetch - first := by
  have hsub : r.held ⊆ List.range' first (r.lastFetch - first) := fun i hi => by
    have h₁ := h.held_le i hi
    have h₂ := h.held_lt i hi
    have h₃ := h.first_le
    have h₄ := h.next_le
    rw [List.mem_range'_1]
    omega
  have := (h.nodup.subperm hsub).length_le
  rwa [List.length_range'] at this

/-! ### The window is kept full -/

theorem Ok.start (h : Ok size fetched first r position stop) (hlt : r.nextFetch < r.lastFetch)
    (hroom : r.inFlight.length < maxInFlightChunks) :
    Ok size fetched first { r with inFlight := r.inFlight ++ [r.nextFetch], nextFetch := r.nextFetch + 1 } position stop := by
  have hperm : List.Perm (held { r with inFlight := r.inFlight ++ [r.nextFetch], nextFetch := r.nextFetch + 1 })
      (r.nextFetch :: r.held) := by
    unfold held
    rw [List.append_assoc, List.singleton_append]
    exact List.perm_middle
  have hnew : r.nextFetch ∉ r.held := fun hm => absurd (h.held_lt _ hm) (lt_irrefl _)
  refine { h with nodup := ?_, held_le := ?_, held_lt := ?_, ordinal_le := ?_, next_le := hlt, flight_le := ?_ }
  · exact hperm.nodup_iff.2 (List.nodup_cons.2 ⟨hnew, h.nodup⟩)
  · intro i hi
    rcases List.mem_cons.1 (hperm.mem_iff.1 hi) with rfl | hi
    · exact h.ordinal_le
    · exact h.held_le i hi
  · intro i hi
    rcases List.mem_cons.1 (hperm.mem_iff.1 hi) with rfl | hi
    · exact Nat.lt_succ_self _
    · exact Nat.lt_succ_of_lt (h.held_lt i hi)
  · exact Nat.le_succ_of_le h.ordinal_le
  · rw [List.length_append, List.length_singleton]
    omega

/-- What the first loop leaves: a window that is full, or all of it asked for. -/
structure Refilled (r r' : ChunkReader) : Prop where
  full : r'.nextFetch < r'.lastFetch → r'.inFlight.length = maxInFlightChunks
  ordinal : r'.currentOrdinal = r.currentOrdinal
  last : r'.lastFetch = r.lastFetch
  current : r'.current = r.current
  ready : r'.ready = r.ready
  next : r.nextFetch ≤ r'.nextFetch
  whole : r.Whole → r'.Whole

theorem Ok.refill (h : Ok size fetched first r position stop) (n : ℕ) : Ok size fetched first (r.refill n) position stop := by
  induction n generalizing r with
  | zero => exact h
  | succ n ih =>
    unfold ChunkReader.refill
    split
    · next hc => exact ih (h.start hc.1 hc.2)
    · exact h

theorem refilled (n : ℕ) (hn : maxInFlightChunks ≤ r.inFlight.length + n) (hle : r.inFlight.length ≤ maxInFlightChunks) :
    Refilled r (r.refill n) := by
  induction n generalizing r with
  | zero => exact ⟨fun _ => by unfold ChunkReader.refill; omega, rfl, rfl, rfl, rfl, le_rfl, id⟩
  | succ n ih =>
    unfold ChunkReader.refill
    split
    · next hc =>
      have hlen : (r.inFlight ++ [r.nextFetch]).length = r.inFlight.length + 1 := by simp
      have h := ih (r := { r with inFlight := r.inFlight ++ [r.nextFetch], nextFetch := r.nextFetch + 1 })
        (by dsimp only; omega) (by dsimp only; omega)
      refine ⟨h.full, h.ordinal, h.last, h.current, h.ready, (Nat.le_succ _).trans h.next, fun hw => h.whole fun i hi hlt => ?_⟩
      have hlt : i < r.nextFetch + 1 := hlt
      rcases Nat.lt_succ_iff_lt_or_eq.1 hlt with hlt | rfl
      · have := mem_held.1 (hw i hi hlt)
        rw [mem_held]
        simp only [List.mem_append]
        tauto
      · rw [mem_held]
        simp
    · next hc =>
      refine ⟨fun hlt => ?_, rfl, rfl, rfl, rfl, le_rfl, id⟩
      by_contra hne
      exact hc ⟨hlt, by omega⟩

/-! ### One turn of the second loop -/

/-- A fetch that arrives waits in `ready`. -/
theorem Ok.arrive (h : Ok size fetched first r position stop) (hi : i ∈ r.inFlight) (hc : fetched i = .ok chunk) :
    Ok size fetched first { r with inFlight := r.inFlight.erase i, ready := r.ready.insert i chunk } position stop := by
  have hnodup := h.nodup
  have hnot : i ∉ r.ready.keys := by
    unfold held at hnodup
    exact fun hm => (List.nodup_append.1 hnodup).2.2 i hi i (List.mem_append_left _ hm) rfl
  have hperm : List.Perm (held { r with inFlight := r.inFlight.erase i, ready := r.ready.insert i chunk }) r.held := by
    unfold held
    dsimp only
    rw [AList.keys_insert, List.erase_of_not_mem hnot, List.cons_append]
    exact List.perm_middle.trans ((List.perm_cons_erase hi).symm.append_right _)
  refine { h with
    nodup := hperm.nodup_iff.2 hnodup
    held_le := fun j hj => h.held_le j (hperm.mem_iff.1 hj)
    held_lt := fun j hj => h.held_lt j (hperm.mem_iff.1 hj)
    flight_le := (List.length_erase_le).trans h.flight_le
    ready := fun j c hj => ?_ }
  by_cases hji : j = i
  · subst hji
    rw [AList.lookup_insert] at hj
    cases hj
    exact hc
  · rw [AList.lookup_insert_ne hji] at hj
    exact h.ready j c hj

theorem Whole.arrive (h : r.Whole) :
    Whole { r with inFlight := r.inFlight.erase i, ready := r.ready.insert i chunk } := by
  intro j hj hlt
  have hheld := mem_held.1 (h j hj hlt)
  rw [mem_held]
  dsimp only
  by_cases hji : j = i
  · exact .inr (.inl ((AList.mem_insert _).2 (.inl hji)))
  · rw [List.mem_erase_of_ne hji, AList.mem_insert]
    tauto

/-- A fetch that fails is forgotten. -/
theorem Ok.fail (h : Ok size fetched first r position stop) :
    Ok size fetched first { r with inFlight := r.inFlight.erase i } position stop := by
  have hsub : List.Sublist (held { r with inFlight := r.inFlight.erase i }) r.held := List.erase_sublist.append_right _
  exact { h with
    nodup := h.nodup.sublist hsub
    held_le := fun j hj => h.held_le j (hsub.subset hj)
    held_lt := fun j hj => h.held_lt j (hsub.subset hj)
    flight_le := (List.length_erase_le).trans h.flight_le }

/-- The reader with the next chunk in hand, out of everything it holds. -/
structure InHand (size : ℕ) (fetched : ℕ → Except KeyspaceError Bytes) (first : ℕ) (r : ChunkReader) (position stop : ℕ) (chunk : Bytes)
    (start : ℕ) : Prop where
  ok : Ok size fetched first r position stop
  none : r.current = none
  out : r.currentOrdinal ∉ r.held
  lt : r.currentOrdinal < r.nextFetch
  fetched_eq : fetched r.currentOrdinal = .ok chunk
  position_eq : position = r.currentOrdinal * size + start
  start_lt : start < chunk.length

/-- The chunk in hand is the only one that is not held. -/
def Almost (r : ChunkReader) : Prop := ∀ i, r.currentOrdinal < i → i < r.nextFetch → i ∈ r.held

theorem InHand.yield {start count : ℕ} (h : InHand size fetched first r position stop chunk start) (hl : Lengths size fetched len)
    (hlen : stop ≤ len) (hfit : start + count ≤ chunk.length) :
    Ok size fetched first (r.yield chunk start count position).2.1 (position + count) stop ∧
      (r.Almost → (r.yield chunk start count position).2.1.Whole) := by
  obtain ⟨h, hnone, hout, hlt, hc, hpos, hstart⟩ := h
  have hchunk := hl _ _ hc
  have hle : chunk.length ≤ size := hchunk ▸ min_le_left ..
  have hheld : r.held = r.inFlight ++ (r.ready.keys ++ []) := by rw [held, hnone]; rfl
  unfold ChunkReader.yield
  dsimp only
  split
  · next hmore =>
    have hperm : List.Perm (held { r with current := some (chunk, start + count) }) (r.currentOrdinal :: r.held) := by
      rw [hheld, List.append_nil]
      unfold held
      rw [← List.append_assoc]
      exact List.perm_append_singleton ..
    refine ⟨{ h with nodup := ?_, held_le := ?_, held_lt := ?_, current := ?_, place := ?_ }, fun ha i hi hi' => ?_⟩
    · exact hperm.nodup_iff.2 (List.nodup_cons.2 ⟨hout, h.nodup⟩)
    · intro i hi
      rcases List.mem_cons.1 (hperm.mem_iff.1 hi) with rfl | hi
      · exact le_rfl
      · exact h.held_le i hi
    · intro i hi
      rcases List.mem_cons.1 (hperm.mem_iff.1 hi) with rfl | hi
      · exact hlt
      · exact h.held_lt i hi
    · rintro _ _ ⟨⟩
      exact ⟨hc, by dsimp only; omega, hmore⟩
    · intro _
      dsimp only
      rw [hpos, Nat.add_assoc, Nat.mul_comm]
      exact Nat.mul_add_div h.size_pos .. ▸ by rw [Nat.div_eq_of_lt (by omega), Nat.add_zero]
    · rcases Nat.eq_or_lt_of_le hi with rfl | hi
      · exact hperm.mem_iff.2 List.mem_cons_self
      · exact hperm.mem_iff.2 (List.mem_cons_of_mem _ (ha i hi hi'))
  · next hend =>
    have hsame : held { r with current := Option.none, currentOrdinal := r.currentOrdinal + 1 } = r.held := by
      rw [hheld]
      rfl
    refine ⟨{ h with nodup := ?_, held_le := ?_, held_lt := ?_, first_le := ?_, ordinal_le := hlt, current := ?_, place := ?_ }, fun ha i hi hi' => ?_⟩
    · rw [hsame]
      exact h.nodup
    · intro i hi
      rw [hsame] at hi
      exact Nat.lt_of_le_of_ne (h.held_le i hi) fun he => hout (he ▸ hi)
    · intro i hi
      rw [hsame] at hi
      exact h.held_lt i hi
    · exact Nat.le_succ_of_le h.first_le
    · rintro _ _ ⟨⟩
    · intro hbefore
      -- the value goes on, so the chunk was a full one
      have hfull : chunk.length = size := by
        rw [hchunk]
        refine min_eq_left ?_
        by_contra hshort
        rw [min_eq_right (by omega)] at hchunk
        omega
      have hnext : position + count = (r.currentOrdinal + 1) * size := by
        rw [Nat.succ_mul]
        omega
      rw [hnext]
      exact Nat.mul_div_cancel _ h.size_pos
    · rw [hsame]
      exact ha i hi hi'

/-- The bytes a reader yields are those of the chunk its position is in. -/
theorem InHand.pollOk {start count : ℕ} (h : InHand size fetched first r position stop chunk start) (hl : Lengths size fetched len)
    (hlen : stop ≤ len) (hcount : count ≠ 0) (hroom : count ≤ room) (hfit : start + count ≤ chunk.length)
    (hstop : position + count ≤ stop) {r₀ : ChunkReader} (hw : r₀.Whole → r.Almost) :
    PollOk size fetched room order r₀ position stop (r.yield chunk start count position).2.1 (position + count)
      (.ready (slice chunk start count)) := by
  have hlength : (slice chunk start count).length = count := by
    rw [slice, List.length_take, List.length_drop]
    omega
  have hle : chunk.length ≤ size := hl _ _ h.fetched_eq ▸ min_le_left ..
  have hstart := h.start_lt
  have hdiv : position / size = r.currentOrdinal := h.ok.place (by omega)
  have hmod : position % size = start := by
    rw [h.position_eq, Nat.add_comm, Nat.add_mul_mod_self_right, Nat.mod_eq_of_lt (by omega)]
  have hc : fetched (position / size) = .ok chunk := by
    rw [hdiv]
    exact h.fetched_eq
  refine .bytes (fun hnil => ?_) (hlength.trans_le hroom) hc ?_ ?_ ?_ hstop fun h₀ => (h.yield hl hlen hfit).2 (hw h₀)
  · rw [hnil] at hlength
    exact hcount hlength.symm
  · rw [hlength, hmod]
  · rw [hlength, hmod]
    exact hfit
  · rw [hlength]

/-- The chunk that is next in order is taken out of `ready`. -/
theorem Ok.inHand (h : Ok size fetched first r position stop) (hcur : r.current = none) (hlt : position < stop)
    (hr : r.ready.lookup r.currentOrdinal = some chunk) (hl : Lengths size fetched len) (hlen : stop ≤ len) :
    InHand size fetched first { r with ready := r.ready.erase r.currentOrdinal } position stop chunk (position - r.currentOrdinal * size) := by
  have hmem : r.currentOrdinal ∈ r.ready.keys := AList.mem_keys.1 (AList.lookup_isSome.1 (by rw [hr]; rfl))
  have hheld : r.currentOrdinal ∈ r.held := List.mem_append_right _ (List.mem_append_left _ hmem)
  have hnodup := h.nodup
  have hparts : r.held = r.inFlight ++ (r.ready.keys ++ []) := by rw [held, hcur]; rfl
  have hparts' : held { r with ready := r.ready.erase r.currentOrdinal } = r.inFlight ++ (r.ready.keys.erase r.currentOrdinal ++ []) := by
    unfold held
    dsimp only
    rw [hcur, AList.keys_erase]
    rfl
  have hsub : List.Sublist (held { r with ready := r.ready.erase r.currentOrdinal }) r.held := by
    rw [hparts, hparts']
    exact (List.erase_sublist.append_right _).append_left _
  have hdiv := h.place hlt
  have hbase : r.currentOrdinal * size ≤ position := hdiv ▸ Nat.div_mul_le_self ..
  have hc := h.ready _ _ hr
  refine ⟨{ h with
    nodup := hnodup.sublist hsub
    held_le := fun i hi => h.held_le i (hsub.subset hi)
    held_lt := fun i hi => h.held_lt i (hsub.subset hi)
    ready := fun i c hi => ?_
    current := fun c offset hi => ?_ }, hcur, ?_, h.held_lt _ hheld, hc, ?_, ?_⟩
  · by_cases hne : i = r.currentOrdinal
    · rw [hne, AList.lookup_erase] at hi
      cases hi
    · rw [AList.lookup_erase_ne hne] at hi
      exact h.ready i c hi
  · rw [hcur] at hi
    cases hi
  · rw [hparts']
    rw [hparts, List.append_nil, List.nodup_append] at hnodup
    rw [List.append_nil, List.mem_append]
    rintro (hi | hi)
    · exact hnodup.2.2 _ hi _ hmem rfl
    · exact (List.Nodup.mem_erase_iff hnodup.2.1).1 hi |>.1 rfl
  · dsimp only
    omega
  · -- the position is inside the chunk, since the value goes on behind it
    have hmod := Nat.mod_lt position h.size_pos
    have hadd := Nat.div_add_mod' position size
    rw [hdiv] at hadd
    rw [hl _ _ hc, Nat.lt_min]
    omega

/-- The chunk that is being drained is taken out of its place. -/
theorem Ok.drain {offset : ℕ} (h : Ok size fetched first r position stop) (hcur : r.current = some (chunk, offset)) :
    InHand size fetched first { r with current := none } position stop chunk offset := by
  obtain ⟨hc, hpos, hoff⟩ := h.current chunk offset hcur
  have hparts : r.held = r.inFlight ++ (r.ready.keys ++ [r.currentOrdinal]) := by rw [held, hcur]; rfl
  have hparts' : held { r with current := none } = r.inFlight ++ (r.ready.keys ++ []) := rfl
  have hperm : List.Perm r.held (r.currentOrdinal :: held { r with current := none }) := by
    rw [hparts, hparts', List.append_nil, ← List.append_assoc]
    exact List.perm_append_singleton ..
  have hnodup := List.nodup_cons.1 (hperm.nodup_iff.1 h.nodup)
  have hsub : ∀ i ∈ held { r with current := none }, i ∈ r.held := fun i hi => hperm.mem_iff.2 (List.mem_cons_of_mem _ hi)
  refine ⟨{ h with
    nodup := hnodup.2
    held_le := fun i hi => h.held_le i (hsub i hi)
    held_lt := fun i hi => h.held_lt i (hsub i hi)
    current := fun c _ hi => by cases hi }, rfl, hnodup.1, h.held_lt _ (hperm.mem_iff.2 List.mem_cons_self), hc, hpos, hoff⟩

theorem nextChunk_ok {n : ℕ} (hn : order.length < n) (h : Ok size fetched first r position stop) (hcur : r.current = none)
    (hl : Lengths size fetched len) (hlen : stop ≤ len) (hlt : position < stop) (hroom : 0 < room)
    (hfull : r.nextFetch < r.lastFetch → r.currentOrdinal < r.nextFetch) :
    Ok size fetched first (r.nextChunk size fetched room (stop - position) n order position).2.1
        (r.nextChunk size fetched room (stop - position) n order position).2.2 stop ∧
      (r.nextChunk size fetched room (stop - position) n order position).2.1.inFlight ⊆ r.inFlight ∧
      PollOk size fetched room order r position stop (r.nextChunk size fetched room (stop - position) n order position).2.1
        (r.nextChunk size fetched room (stop - position) n order position).2.2
        (r.nextChunk size fetched room (stop - position) n order position).1 := by
  induction n generalizing r order with
  | zero => omega
  | succ n ih =>
    unfold ChunkReader.nextChunk
    split
    · next chunk hr =>
      have hh := h.inHand hcur hlt hr hl hlen
      dsimp only
      generalize position - r.currentOrdinal * size = start at hh ⊢
      have hstart := hh.start_lt
      rw [if_neg (by omega)]
      refine ⟨(hh.yield hl hlen (by omega)).1, ?_, hh.pollOk hl hlen (by omega) (by omega) (by omega) (by omega) fun hw i hi hi' => ?_⟩
      · unfold ChunkReader.yield
        dsimp only
        split <;> exact List.Subset.refl _
      · have := mem_held.1 (hw i (Nat.le_of_lt hi) hi')
        rw [mem_held]
        dsimp only at hi ⊢
        rw [AList.mem_erase]
        have hne : i ≠ r.currentOrdinal := by omega
        tauto
    · next hr =>
      split
      · next hempty =>
        refine ⟨h, List.Subset.refl _, .ended rfl fun hw => ?_⟩
        by_cases hord : r.currentOrdinal < r.nextFetch
        · rcases mem_held.1 (hw _ le_rfl hord) with hm | hm | ⟨hm, -⟩
          · rw [hempty] at hm
            cases hm
          · rw [← AList.lookup_isSome, hr] at hm
            cases hm
          · rw [hcur] at hm
            cases hm
        · -- everything was asked for and drained, so the window is over
          have hlast : r.lastFetch ≤ r.currentOrdinal := by
            have := h.next_le
            by_contra hlt'
            exact hord (hfull (by omega))
          have hbase : r.currentOrdinal * size ≤ position := h.place hlt ▸ Nat.div_mul_le_self ..
          have hover : stop ≤ position := h.stop_le.trans ((Nat.mul_le_mul_right _ hlast).trans hbase)
          exact absurd hlt (Nat.not_lt.2 hover)
      · next hflight =>
        cases order with
        | nil =>
          obtain ⟨i, hi⟩ := List.exists_mem_of_ne_nil _ hflight
          exact ⟨h, List.Subset.refl _, .wait rfl hi List.not_mem_nil id⟩
        | cons ordinal order =>
          have hn : order.length < n := by simpa using hn
          dsimp only
          split
          · next hi =>
            cases hc : fetched ordinal with
            | error e =>
              dsimp only
              have hheld := List.mem_append_left (r.ready.keys ++ (r.current.map fun _ => r.currentOrdinal).toList) hi
              exact ⟨h.fail, List.erase_subset, .failed rfl (h.held_le _ hheld) ((h.held_lt _ hheld).trans_le h.next_le) hc⟩
            | ok chunk =>
              dsimp only
              obtain ⟨hok, hsub, hpoll⟩ := ih hn (h.arrive hi hc) hcur hfull
              refine ⟨hok, List.Subset.trans hsub List.erase_subset, hpoll.of_turn Whole.arrive rfl rfl fun i hi' hm => ?_⟩
              have hnodup := h.nodup
              unfold held at hnodup
              have hne : i ≠ ordinal := ((List.Nodup.mem_erase_iff (List.nodup_append.1 hnodup).1).1 (hsub hi')).1
              exact (List.mem_cons.1 hm).resolve_left hne
          · next hi =>
            obtain ⟨hok, hsub, hpoll⟩ := ih hn h hcur hfull
            refine ⟨hok, hsub, hpoll.of_turn id rfl rfl fun i hi' hm => (List.mem_cons.1 hm).resolve_left ?_⟩
            rintro rfl
            exact hi (hsub hi')

/-- One poll keeps the invariant, and returns what it may. -/
theorem Ok.poll (h : Ok size fetched first r position stop) (hl : Lengths size fetched len) (hlen : stop ≤ len) (hlt : position < stop)
    (hroom : 0 < room) (order : List ℕ) :
    Ok size fetched first (r.poll size fetched room order position stop).2.1 (r.poll size fetched room order position stop).2.2 stop ∧
      PollOk size fetched room order r position stop (r.poll size fetched room order position stop).2.1
        (r.poll size fetched room order position stop).2.2 (r.poll size fetched room order position stop).1 := by
  have hr := refilled maxInFlightChunks (r := r) (by omega) h.flight_le
  have h := h.refill maxInFlightChunks
  unfold ChunkReader.poll
  generalize r.refill maxInFlightChunks = r₁ at hr h ⊢
  dsimp only
  cases hcur : r₁.current with
  | none =>
    dsimp only
    have hfull : r₁.nextFetch < r₁.lastFetch → r₁.currentOrdinal < r₁.nextFetch := by
      intro hmore
      have hlen := hr.full hmore
      obtain ⟨i, hi⟩ := List.exists_mem_of_length_pos (l := r₁.inFlight) (by rw [hlen]; decide)
      have hheld := List.mem_append_left (r₁.ready.keys ++ (r₁.current.map fun _ => r₁.currentOrdinal).toList) hi
      exact (h.held_le i hheld).trans_lt (h.held_lt i hheld)
    have hfuel : order.length < r₁.ready.entries.length + order.length + 1 := by omega
    obtain ⟨hok, -, hpoll⟩ := nextChunk_ok hfuel h hcur hl hlen hlt hroom hfull
    exact ⟨hok, hpoll.of_turn hr.whole hr.ordinal hr.last fun _ _ => id⟩
  | some c =>
    obtain ⟨chunk, offset⟩ := c
    obtain ⟨hc, hpos, hoff⟩ := h.current chunk offset hcur
    have hmin : min offset chunk.length = offset := min_eq_left hoff.le
    dsimp only
    rw [hmin]
    generalize hcount : min (offset + min room (stop - position)) chunk.length - offset = count
    have hh := h.drain hcur
    rw [if_neg (by omega)]
    have hyield : r₁.yield chunk offset count position = ChunkReader.yield { r₁ with current := none } chunk offset count position := rfl
    rw [hyield]
    refine ⟨(hh.yield hl hlen (by omega)).1, ?_⟩
    refine PollOk.of_turn (hh.pollOk hl hlen (by omega) (by omega) (by omega) (by omega) fun (hw : r₁.Whole) i hi hi' => ?_)
      hr.whole hr.ordinal hr.last fun _ _ => id
    have := mem_held.1 (hw i (Nat.le_of_lt hi) hi')
    rw [mem_held]
    dsimp only at hi ⊢
    have hne : i ≠ r₁.currentOrdinal := by omega
    tauto

end

end ChunkReader

end YeetzS3.Keyspace
