import YeetzS3.Streams.Walk

/-!
# Recovery of the tail hint

`recover_tail_hint` probes at doubling distances, saturated at `u64::MAX`, until a probe misses. The distance reaches
`u64::MAX` after 64 doublings and stays there, so the probing goes on for ever exactly when every probe hits (`Endless`), which
takes an event at `u64::MAX`. A read ends whenever the recovery it may start does.
-/

namespace YeetzS3.Streams

open Conc
open Keyspace (AtomicKeyspace seen Unserved)

/-! ### Other keys of the stream -/

theorem StreamId.logKey_ne_tailKey {stream : StreamId} {q : UInt64} : stream.logKey q ≠ stream.tailKey := fun h => by
  have := congrArg List.length h
  rw [tailKey_length, logKey_length] at this
  omega

section
variable {X : Crates} {K : AtomicKeyspace} {stream : StreamId} {s t : Store} {seq n : ℕ}

/-- The tail hint is none of the events. -/
theorem found_beside (h : K.Beside stream.tailKey s t) (seq : UInt64) : stream.found X K t seq = stream.found X K s seq :=
  Keyspace.seen_beside h StreamId.logKey_ne_tailKey

end

/-! ### Probes -/

/-- The event at `seq` is read, verified or not. -/
def StreamId.Readable (X : Crates) (K : AtomicKeyspace) (s : Store) (stream : StreamId) (seq : UInt64) : Prop :=
  ∃ bytes, stream.found X K s seq = .ok (some bytes)

/-- The span of probe `i`: 1, 2, 4 and so on, up to `u64::MAX`. -/
def spanAt : ℕ → UInt64
  | 0 => 1
  | i + 1 => satAdd (spanAt i) (spanAt i)

/-- Every probe of a recovery from `start` hits. -/
structure StreamId.Endless (X : Crates) (K : AtomicKeyspace) (s : Store) (stream : StreamId) (start : UInt64) : Prop where
  room : start ≠ maxSeq
  first : stream.Readable X K s start
  hits : ∀ i, stream.Readable X K s (satAdd start (spanAt i))

theorem spanAt_stays (i : ℕ) : spanAt (64 + i) = maxSeq := by
  induction i with
  | zero => decide +kernel
  | succ i ih =>
    rw [← Nat.add_assoc, spanAt, ih]
    decide

theorem spanAt_pos (i : ℕ) : 1 ≤ (spanAt i).toNat := by
  induction i with
  | zero => decide
  | succ i ih =>
    have hmax : maxSeq.toNat = 18446744073709551615 := by decide
    rw [spanAt, satAdd]
    split
    · next h =>
      rw [UInt64.toNat_add, Nat.mod_eq_of_lt h]
      omega
    · omega

theorem satAdd_span (start : UInt64) (i : ℕ) : satAdd start (spanAt i) = start ↔ start = maxSeq := by
  have hpos := spanAt_pos i
  have hmax : maxSeq.toNat = 18446744073709551615 := by decide
  have hlt := start.toNat_lt
  unfold satAdd
  split
  · next h =>
    rw [← UInt64.toNat_inj, ← UInt64.toNat_inj, UInt64.toNat_add, Nat.mod_eq_of_lt h]
    omega
  · exact eq_comm

section
variable {X : Crates} {K : AtomicKeyspace} {B : Backend} {stream : StreamId} {s t : Store} {start low high : UInt64} {k n fuel : ℕ}

theorem StreamId.Endless.congr (h : ∀ seq, stream.found X K t seq = stream.found X K s seq) :
    stream.Endless X K t start ↔ stream.Endless X K s start := by
  have hr : ∀ seq, stream.Readable X K t seq ↔ stream.Readable X K s seq := fun seq => by
    rw [StreamId.Readable, StreamId.Readable, h]
  constructor
  · exact fun ⟨hroom, hfirst, hhits⟩ => ⟨hroom, (hr _).1 hfirst, fun i => (hr _).1 (hhits i)⟩
  · exact fun ⟨hroom, hfirst, hhits⟩ => ⟨hroom, (hr _).2 hfirst, fun i => (hr _).2 (hhits i)⟩

/-- It takes an event at `u64::MAX`. -/
theorem StreamId.Endless.last (h : stream.Endless X K s start) : stream.Readable X K s maxSeq := by
  have hlast : satAdd start (spanAt (64 + 0)) = maxSeq := by
    rw [spanAt_stays]
    unfold satAdd
    split
    · next hroom =>
      have hmax : maxSeq.toNat = 18446744073709551615 := by decide
      rw [← UInt64.toNat_inj, UInt64.toNat_add, Nat.mod_eq_of_lt hroom]
      omega
    · rfl
  exact hlast ▸ h.hits (64 + 0)

/-- A probe that misses is among the first 65. -/
theorem StreamId.exists_miss (h : ¬ stream.Endless X K s start) (hs : stream.Readable X K s start) :
    start = maxSeq ∨ ∃ i, i < 65 ∧ ¬ stream.Readable X K s (satAdd start (spanAt i)) := by
  by_cases hm : start = maxSeq
  · exact .inl hm
  right
  by_contra hn
  push Not at hn
  refine h ⟨hm, hs, fun i => ?_⟩
  by_cases hi : i < 65
  · exact hn i hi
  · obtain ⟨j, rfl⟩ := Nat.exists_eq_add_of_le (show 64 ≤ i by omega)
    have := hn 64 (by decide)
    rw [spanAt_stays 0] at this
    rwa [spanAt_stays]

/-- A get of an event, which leaves the bucket as it is. -/
theorem ends_found (seq : UInt64) : (Keyspace.get X.toOutside K (stream.logKey seq)).run.Ends B.exec
    (fun r t => t = s ∧ InFull Unserved B (stream.found X K s seq) r) s := Keyspace.ends_get _

theorem readable_of_inFull {seq : UInt64} {bytes : Bytes} (h : InFull Unserved B (stream.found X K s seq) (.ok (some bytes))) :
    stream.Readable X K s seq := by
  rcases h with h | ⟨-, e, -, h⟩
  · exact ⟨bytes, h.symm⟩
  · cases h

theorem ends_probeUp (h : start = maxSeq ∧ 0 < fuel ∨ ∃ i, k ≤ i ∧ i < k + fuel ∧ ¬ stream.Readable X K s (satAdd start (spanAt i))) :
    (probeUp X K stream start fuel low (spanAt k)).Ends B.exec (fun _ t => t = s) s := by
  induction fuel generalizing k low with
  | zero => omega
  | succ fuel ih =>
    rw [probeUp]
    split
    · rfl
    next hp =>
    rcases h with ⟨rfl, -⟩ | ⟨i, hk, hi, hmiss⟩
    · exact absurd ((satAdd_span _ k).2 rfl) hp
    refine Prog.ends_bind.2 ((ends_found _).imp ?_)
    rintro (_ | _ | bytes) t ⟨rfl, hr⟩
    · rfl
    · rfl
    · -- the probe hit, so it is a later one that misses
      have hne : i ≠ k := by
        rintro rfl
        exact hmiss (readable_of_inFull hr)
      exact ih (k := k + 1) (.inr ⟨i, by omega, by omega, hmiss⟩)

theorem ends_bisect (hn : (high - low).toNat ≤ 2 ^ n) (hfuel : n < fuel) :
    (bisect X K stream fuel low high).Ends B.exec (fun _ t => t = s) s := by
  induction fuel generalizing n low high with
  | zero => omega
  | succ fuel ih =>
    rw [bisect]
    split
    swap
    · rfl
    next hgap =>
    have hgap' : 1 < (high - low).toNat := UInt64.lt_iff_toNat_lt.1 hgap
    have hhalf : ((high - low) / 2).toNat = (high - low).toNat / 2 := by
      rw [UInt64.toNat_div]
      rfl
    obtain ⟨m, rfl⟩ : ∃ m, n = m + 1 := by
      cases n with
      | zero => omega
      | succ m => exact ⟨m, rfl⟩
    rw [Nat.pow_succ] at hn
    have hlow : (low + (high - low) / 2 - low).toNat ≤ 2 ^ m := by
      have he : low + (high - low) / 2 - low = (high - low) / 2 := by grind
      rw [he]
      omega
    have hhigh : (high - (low + (high - low) / 2)).toNat ≤ 2 ^ m := by
      have hle : ((high - low) / 2).toNat ≤ (high - low).toNat := by omega
      have he : high - (low + (high - low) / 2) = high - low - (high - low) / 2 := by grind
      rw [he, UInt64.toNat_sub_of_le _ _ (UInt64.le_iff_toNat_le.2 hle)]
      omega
    refine Prog.ends_bind.2 ((ends_found _).imp ?_)
    rintro (_ | _ | bytes) t ⟨rfl, -⟩
    · rfl
    · exact ih hlow (by omega)
    · exact ih hhigh (by omega)

/-- While every probe hits, the probing goes on. -/
theorem not_ends_probeUp {Q} (h : stream.Endless X K s start) :
    ¬ (probeUp X K stream start fuel low (spanAt k)).Ends B.exec Q s := by
  induction fuel generalizing k low with
  | zero => exact id
  | succ fuel ih =>
    rw [probeUp]
    rw [if_neg fun hp => h.room ((satAdd_span _ k).1 hp)]
    intro he
    obtain ⟨bytes, hb⟩ := h.hits k
    have := (Prog.ends_bind.1 he).runs (Keyspace.run_get _)
    rw [StreamId.found] at hb
    rw [hb] at this
    exact ih (k := k + 1) this

/-! ### The calls end -/

theorem finite_mapErr {ε ε' α : Type} {f : ε' → ε} {p : StoreOp ε' α} (h : p.run.Finite) : (mapErr f p).run.Finite := by
  refine Prog.finite_attempt_bind h ?_
  rintro (e | a) <;> trivial

theorem finite_verifiedTailHint (stream : StreamId) : (verifiedTailHint X K stream).Finite := by
  refine Prog.finite_bind (Prog.finite_bindE (finite_mapErr (Keyspace.finite_get _)) ?_) ?_
  · rintro (_ | bytes)
    · trivial
    · dsimp only
      split
      · trivial
      · split <;> trivial
  · rintro (_ | _ | hint)
    · trivial
    · trivial
    · refine Prog.finite_bind (Keyspace.finite_get _) ?_
      rintro (_ | _ | bytes) <;> trivial

theorem finite_hintGivesWay (landed : UInt64) (digest : Str) (bytes : Bytes) :
    (hintGivesWay X K stream landed digest bytes).Finite := by
  unfold hintGivesWay
  split
  · trivial
  split
  · trivial
  split
  · trivial
  split
  · trivial
  · refine Prog.finite_bind (Keyspace.finite_get _) ?_
    rintro (_ | _ | bytes) <;> trivial

theorem finite_nextLogKeyAfter (stream : StreamId) (after : UInt64) : (nextLogKeyAfter K stream after).run.Finite :=
  Prog.finite_bindE (Keyspace.finite_listAfter _ _) fun _ => trivial

/-- The buckets a read can come to from `s`: its tail hint may have moved. -/
abbrev StreamId.Hinted (stream : StreamId) (K : AtomicKeyspace) (s : Store) : Store → Prop := K.Beside stream.tailKey s

variable {ids : ℕ → Bytes}

theorem hinted_keep : ∀ s' r x t, stream.Hinted K s s' → K.Publishing X.toOutside stream.tailKey r → B.exec s' r x t → stream.Hinted K s t :=
  fun _ _ _ _ hs hr hx => hs.trans (hr.beside hx)

theorem reads_publishing {key : Str} : ∀ r, K.Reads r → K.Publishing X.toOutside key r := fun _ => .inl

section
variable (hfuel : (K.keys s).length + 1 < fuel)
include hfuel

theorem settles_advanceTailHint (landed : UInt64) (envelope : Envelope) :
    (advanceTailHint X K fuel ids stream landed envelope).Settles B.exec (stream.Hinted K s) := by
  have hJ := @hinted_keep X K B stream s
  have hlen : ∀ t, stream.Hinted K s t → (K.keys t).length < fuel := fun t ht => by
    have := AtomicKeyspace.Beside.length_keys ht
    omega
  have hreads := Keyspace.allowsReads_of (@reads_publishing X K stream.tailKey)
  refine Prog.settles_bind ((Keyspace.finite_getWithEtag _).settles (every_getWithEtag hreads _) hJ) ?_
  rintro (_ | _ | ⟨bytes, etag⟩)
  · exact Prog.settles_ret
  · exact Prog.settles_bind (Keyspace.settles_create hJ hlen _ _) fun _ => Prog.settles_ret
  · refine Prog.settles_bind ((finite_hintGivesWay ..).settles (every_hintGivesWay hreads ..) hJ) ?_
    rintro (_ | _)
    · exact Prog.settles_ret
    · exact Prog.settles_bind (Keyspace.settles_compareExchange hJ hlen _ _ _) fun _ => Prog.settles_ret

theorem settles_healTailHint (afterSeq : UInt64) (last : Option Envelope) :
    (healTailHint X K fuel ids stream afterSeq last).Settles B.exec (stream.Hinted K s) := by
  have hreads := Keyspace.allowsReads_of (@reads_publishing X K stream.tailKey)
  cases last with
  | none => exact Prog.settles_ret
  | some last =>
    refine Prog.settles_bind ((finite_verifiedTailHint stream).settles (every_verifiedTailHint hreads stream) hinted_keep) fun hint => ?_
    split
    · exact Prog.settles_ret
    split
    · exact Prog.settles_ret
    · exact settles_advanceTailHint hfuel _ _

/-- A recovery ends unless every probe hits. -/
theorem settles_recoverTailHint (hrounds : 65 < fuel) (h : ¬ stream.Endless X K s start) :
    (recoverTailHint X K fuel ids stream start).Settles B.exec (stream.Hinted K s) := by
  intro t ht
  have hfound : ∀ seq, stream.found X K t seq = stream.found X K s seq := found_beside ht
  have h' : ¬ stream.Endless X K t start := fun hn => h ((StreamId.Endless.congr hfound).1 hn)
  refine Prog.ends_bind.2 ((ends_found start).imp ?_)
  rintro (_ | _ | bytes) u ⟨rfl, hr⟩
  · exact ht
  · exact ht
  have hmiss : start = maxSeq ∧ 0 < fuel ∨ ∃ i, 0 ≤ i ∧ i < 0 + fuel ∧ ¬ stream.Readable X K u (satAdd start (spanAt i)) := by
    rcases StreamId.exists_miss h' (readable_of_inFull hr) with hm | ⟨i, hi, hmiss⟩
    · exact .inl ⟨hm, by omega⟩
    · exact .inr ⟨i, Nat.zero_le i, by omega, hmiss⟩
  refine Prog.ends_bind.2 ((ends_probeUp hmiss).imp ?_)
  rintro (_ | ⟨low, span⟩) v rfl
  · exact ht
  have hgap : (satAdd start span - low).toNat ≤ 2 ^ 64 := (UInt64.toNat_lt _).le
  refine Prog.ends_bind.2 ((ends_bisect hgap (by omega)).imp ?_)
  rintro (_ | low) v rfl
  · exact ht
  refine Prog.ends_bind.2 ((ends_found low).imp ?_)
  rintro (_ | _ | bytes) v ⟨rfl, -⟩
  · exact ht
  · exact ht
  dsimp only
  split
  · exact ht
  · exact settles_advanceTailHint hfuel _ _ v ht

end

/-- A program that only reads and has nothing to loop in. -/
theorem ends_reads {α : Type} {p : Quiet α} (hp : p.Finite) (he : p.Every Req.Looks fun _ => True) :
    p.Ends B.exec (fun _ t => t = s) s := by
  refine (hp.ends.keep (J := (· = s)) he (fun u r x t hu hr hx => ?_) rfl).imp fun _ _ => And.right
  rw [← hu]
  exact Backend.looks_store hr (.inl hx)

/-- A slice ends at its last event. -/
theorem StreamId.slice_getLast? {events : List Envelope} {last : Envelope} (h : stream.Slice X K s n events)
    (hl : events.getLast? = some last) : last.seq.toNat + 1 = n + events.length := by
  obtain ⟨events, rfl⟩ := List.getLast?_eq_some_iff.1 hl
  have := (StreamId.slice_concat.1 h).2.seq_eq
  rw [List.length_append, List.length_singleton]
  omega

section
variable {ids : ℕ → Bytes} {limit : ℕ} {afterSeq : UInt64} (hfuel : (K.keys s).length + 1 < fuel) (hrounds : 65 < fuel)
  (hend : ∀ walked (e : UInt64), stream.Walks X K B s limit (afterSeq.toNat + 1) (.ok walked) →
    e.toNat = afterSeq.toNat + walked.events.length → ¬ stream.Endless X K s e)
include hfuel hrounds hend

theorem ends_readFrom (hlimit : limit ≠ 0) (hmax : afterSeq ≠ maxSeq) :
    (readFrom X K fuel ids stream afterSeq limit).Ends B.exec (fun _ t => stream.Hinted K s t) s := by
  have hreads : Keyspace.Key.AllowsReads K Req.Looks := Keyspace.allowsReads_of Keyspace.looks_of_reads
  have hself : stream.Hinted K s s := AtomicKeyspace.Beside.refl s
  have hfloor : (Keyspace.trimFloor K fuel stream.value).run.Ends B.exec (fun _ t => t = s) s :=
    Keyspace.settles_trimFloor (J := (· = s)) (fun t ht => by rw [ht]; omega) stream.value s rfl
  refine Prog.ends_bind.2 (hfloor.imp ?_)
  rintro (_ | floor) t rfl
  · exact hself
  dsimp only
  split
  · exact hself
  have hsucc : (afterSeq + 1).toNat = afterSeq.toNat + 1 := toNat_succ hmax
  have hnone : stream.Slice X K t (afterSeq.toNat + 1) [] := trivial
  refine Prog.ends_bind.2 ((ends_readLoop hnone hsucc (Nat.pos_of_ne_zero hlimit) le_rfl).imp ?_)
  rintro (replay | walked) u ⟨rfl, hw⟩
  · exact hself
  dsimp only
  -- where the page ends
  have hpage : ∀ e, walked.events.getLast? = some e → e.seq.toNat = afterSeq.toNat + walked.events.length := by
    intro e he
    have hslice : stream.Slice X K u (afterSeq.toNat + 1) walked.events := by
      cases hw with
      | whole h | absent h => exact h
    have := StreamId.slice_getLast? hslice he
    omega
  have hlast : ((walked.events.getLast?.map (·.seq)).getD afterSeq).toNat = afterSeq.toNat + walked.events.length := by
    cases hl : walked.events.getLast? with
    | none =>
      rw [List.getLast?_eq_none_iff.1 hl]
      rfl
    | some e => exact hpage e hl
  generalize (walked.events.getLast?.map (·.seq)).getD afterSeq = endSeq at hlast
  have hrecover : (recoverTailHint X K fuel ids stream endSeq).Settles B.exec (stream.Hinted K u) :=
    settles_recoverTailHint hfuel hrounds (hend walked endSeq hw hlast)
  refine Prog.ends_bind.2 ((ends_reads (finite_nextLogKeyAfter ..) (every_nextLogKeyAfter hreads ..)).imp ?_)
  rintro (_ | _ | next) v rfl
  · exact hself
  · -- no later key is listed
    refine Prog.ends_bind.2 ((ends_reads (finite_verifiedTailHint stream) (every_verifiedTailHint hreads stream)).imp ?_)
    rintro verified w rfl
    have hhealed : ∀ endWitnessed, (readHealed X K fuel ids stream afterSeq walked endSeq endWitnessed).Ends B.exec
        (fun _ t => stream.Hinted K w t) w := by
      intro endWitnessed
      have hpage : ∀ t, stream.Hinted K w t → (if walked.events = [] then pure .empty else pure (.page walked.events endWitnessed) :
          Quiet Replay).Ends B.exec (fun _ t => stream.Hinted K w t) t := fun t ht => by
        split <;> exact ht
      cases endWitnessed with
      | true => exact Prog.ends_bind.2 ((settles_healTailHint hfuel _ _ w hself).imp fun _ => hpage)
      | false => exact Prog.ends_bind.2 ((hrecover w hself).imp fun _ => hpage)
    split
    · exact hself
    dsimp only
    split
    · refine Prog.ends_bind.2 ((ends_found _).imp ?_)
      rintro (_ | _ | bytes) v ⟨rfl, -⟩
      · exact hself
      · exact hhealed _
      · dsimp only
        split <;> exact hself
    · exact hhealed _
  · show (readSuffix X K fuel ids stream walked next).Ends B.exec _ v
    unfold readSuffix
    split
    · split <;> exact hself
    next hstopped =>
    split
    · next hnone =>
      -- a page that was not cut by an absent event is not empty
      have hnil := List.getLast?_eq_none_iff.1 hnone
      have hmax' : afterSeq.toNat ≠ maxSeq.toNat := fun h => hmax (UInt64.toNat_inj.1 h)
      have hval : maxSeq.toNat = 18446744073709551615 := by decide
      have hlt := afterSeq.toNat_lt
      cases hw with
      | whole _ hl =>
        have hlen := congrArg List.length hnil
        rw [List.length_nil] at hlen
        dsimp only at hlen
        omega
      | absent => cases hstopped
    · next last hl =>
      split
      swap
      · exact hself
      refine Prog.ends_bind.2 ((ends_reads (finite_verifiedTailHint stream) (every_verifiedTailHint hreads stream)).imp ?_)
      rintro hint w rfl
      split
      · have hseq : last.seq = endSeq := UInt64.toNat_inj.1 ((hpage last hl).trans hlast.symm)
        rw [hseq]
        exact Prog.ends_bind.2 ((hrecover w hself).imp fun _ _ ht => ht)
      · exact hself

/-- A read ends unless every probe from where its page ends would hit. -/
theorem ends_read : (read X K fuel ids stream afterSeq limit).Ends B.exec (fun _ t => stream.Hinted K s t) s := by
  have hself : stream.Hinted K s s := AtomicKeyspace.Beside.refl s
  unfold read
  split
  · exact hself
  next hlimit =>
  refine Prog.ends_bind.2 ((ends_found 0).imp ?_)
  rintro (_ | _ | genesis) t ⟨rfl, -⟩
  · exact hself
  · exact hself
  dsimp only
  split
  · exact hself
  split
  · exact hself
  next hmax => exact ends_readFrom hfuel hrounds hend hlimit hmax

end

/-- While every probe hits, a recovery does not end. -/
theorem not_ends_recoverTailHint {ids : ℕ → Bytes} {Q} (h : stream.Endless X K s start) :
    ¬ (recoverTailHint X K fuel ids stream start).Ends B.exec Q s := by
  intro he
  obtain ⟨bytes, hb⟩ := h.first
  have hprobe := (Prog.ends_bind.1 he).runs (Keyspace.run_get _)
  rw [StreamId.found] at hb
  rw [hb] at hprobe
  exact not_ends_probeUp (k := 0) h (Prog.ends_bind.1 hprobe)

end

/-! ### When recovery ends -/

/-- With enough rounds, a recovery ends exactly when some probe misses, and so does every read whose page does not end where
every probe hits. -/
theorem recovery_ends_iff (X : Crates) (K : AtomicKeyspace) (B : Backend) (stream : StreamId) (s : Store) :
    ∃ fuel₀, ∀ fuel, fuel₀ ≤ fuel → ∀ ids : ℕ → Bytes,
      (∀ start, (recoverTailHint X K fuel ids stream start).Ends B.exec (fun _ _ => True) s ↔ ¬ stream.Endless X K s start) ∧
      ∀ afterSeq limit, (∀ walked (e : UInt64), stream.Walks X K B s limit (afterSeq.toNat + 1) (.ok walked) →
          e.toNat = afterSeq.toNat + walked.events.length → ¬ stream.Endless X K s e) →
        (read X K fuel ids stream afterSeq limit).Ends B.exec (fun _ _ => True) s := by
  refine ⟨max 66 ((K.keys s).length + 2), fun fuel hfuel ids => ⟨fun start => ⟨fun he h => not_ends_recoverTailHint h he, fun h => ?_⟩,
    fun afterSeq limit hend => ?_⟩⟩
  · exact (settles_recoverTailHint (by omega) (by omega) h s (AtomicKeyspace.Beside.refl s)).imp fun _ _ _ => trivial
  · exact (ends_read (by omega) (by omega) hend).imp fun _ _ _ => trivial

/-- The bytes of an event of the one-letter stream. -/
def letterBytes (seq : UInt64) (payload : Bytes) : Bytes :=
  Envelope.bytesOf Serde.crates letterStream seq ⟨"x".toList⟩ ⟨['e', Char.ofNat (48 + seq.toNat)]⟩ payload

/-- A log that was trimmed and collected below its second event, and has two more. -/
def letterPages : Store :=
  let put (s : Store) (entry : Str × Bytes) : Store :=
    s.insert (Keyspace.letterSpace.root ++ entry.1) ⟨(Keyspace.ValueEnvelope.mk 0 0 entry.2).encode, []⟩
  [(letterStream.logKey 4, letterBytes 4 [52, 52]), (letterStream.logKey 3, letterBytes 3 []), (letterStream.logKey 2, letterBytes 2 [50]),
    (letterStream.certPrefix ++ seqComponent 2, []),
    (letterStream.logKey 0, Envelope.bytesOf Serde.crates letterStream 0 genesisSchemaId genesisEventId [])].foldl put ∅

/-- Every recovery of a log without an event at `u64::MAX` ends, and every read of it. -/
theorem recovery_ends_iff_letterPages : ∃ fuel, ∀ ids : ℕ → Bytes,
    (∀ start, (recoverTailHint Serde.crates Keyspace.letterSpace fuel ids letterStream start).Ends Backend.honest.exec (fun _ _ => True)
      letterPages) ∧
    ∀ afterSeq limit, (read Serde.crates Keyspace.letterSpace fuel ids letterStream afterSeq limit).Ends Backend.honest.exec
      (fun _ _ => True) letterPages := by
  have hnone : letterStream.found Serde.crates Keyspace.letterSpace letterPages maxSeq = .ok none := by decide +kernel
  generalize letterPages = s, Serde.crates = X, Keyspace.letterSpace = K, letterStream = stream at hnone ⊢
  have hfinite : ∀ start, ¬ stream.Endless X K s start := by
    intro start h
    obtain ⟨bytes, hb⟩ := h.last
    rw [hnone] at hb
    cases hb
  obtain ⟨fuel, h⟩ := recovery_ends_iff X K .honest stream s
  refine ⟨fuel, fun ids => ?_⟩
  obtain ⟨hrecover, hread⟩ := h fuel le_rfl ids
  exact ⟨fun start => (hrecover start).2 (hfinite start), fun afterSeq limit => hread afterSeq limit fun _ e _ _ => hfinite e⟩

/-- A log that ends with the events at `u64::MAX - 1` and `u64::MAX`. -/
def endlessStore : Store :=
  let o : Object := ⟨Keyspace.inlineBytes 0 [], []⟩
  ((∅ : Store).insert (Keyspace.letterSpace.root ++ letterStream.logKey (maxSeq - 1)) o).insert
    (Keyspace.letterSpace.root ++ letterStream.logKey maxSeq) o

theorem endless_saturated : letterStream.Endless Serde.crates Keyspace.letterSpace endlessStore (maxSeq - 1) := by
  have hmax : maxSeq.toNat = 18446744073709551615 := by decide
  have hprobe : ∀ i, satAdd (maxSeq - 1) (spanAt i) = maxSeq := by
    intro i
    have hpos := spanAt_pos i
    have hpred : (maxSeq - 1).toNat = 18446744073709551614 := by decide
    unfold satAdd
    split
    · next h =>
      rw [← UInt64.toNat_inj, UInt64.toNat_add, Nat.mod_eq_of_lt h]
      omega
    · rfl
  refine ⟨by decide, ⟨[], by decide +kernel⟩, fun i => ?_⟩
  rw [hprobe]
  exact ⟨[], by decide +kernel⟩

/-- A recovery from `u64::MAX - 1` probes `u64::MAX` for ever. -/
theorem recovery_saturates : ¬ ∃ (fuel : ℕ) (ids : ℕ → Bytes),
    (recoverTailHint Serde.crates Keyspace.letterSpace fuel ids letterStream (maxSeq - 1)).Ends Backend.honest.exec (fun _ _ => True)
      endlessStore :=
  not_exists.2 fun _ => not_exists.2 fun _ => not_ends_recoverTailHint endless_saturated

end YeetzS3.Streams
