import YeetzS3.Streams.Recovery

/-!
# What a read says

A read of a log that nobody else writes, on a backend whose lists are honest. No other stream id or cursor shares the prefix of
the stream (`StreamId.Alone`), so that the list behind a position names the next event. `runs_read` says what each answer of a
read is worth.
-/

namespace YeetzS3.Streams

open Conc
open Keyspace (AtomicKeyspace seen Unserved ValidPath byteLen validSegment)

/-! ### Keys of a log -/

theorem validPath_seqComponent (q : UInt64) : ValidPath (seqComponent q) := by
  have hall := List.all_eq_true.1 (decDigits_isDigit 20 q.toNat)
  have halnum : ∀ c ∈ seqComponent q, c.isAlphanum = true := fun c hc => by
    rw [Char.isAlphanum, hall c hc, Bool.or_true]
  have hlen := seqComponent_length q
  rw [ValidPath, List.splitOn_eq_singleton (Keyspace.slash_not_mem_seqComponent q), List.all_cons, List.all_nil, Bool.and_true]
  cases hs : seqComponent q with
  | nil =>
    rw [hs] at hlen
    cases hlen
  | cons c cs =>
    rw [hs] at halnum
    simp only [validSegment, Bool.and_eq_true, List.all_eq_true, Bool.or_eq_true]
    exact ⟨halnum c List.mem_cons_self, fun d hd => .inl (.inl (.inl (halnum d (List.mem_cons_of_mem _ hd))))⟩

theorem byteLen_seqComponent (q : UInt64) : byteLen (seqComponent q) = 20 := by
  have hall := List.all_eq_true.1 (decDigits_isDigit 20 q.toNat)
  have hone : ∀ c : Char, c.isDigit = true → c.utf8Size = 1 := by
    intro c hc
    simp only [Char.isDigit, Bool.and_eq_true, decide_eq_true_eq, UInt32.le_iff_toNat_le] at hc
    rw [Char.utf8Size, if_pos (UInt32.le_iff_toNat_le.2 (hc.2.trans (by decide)))]
  have hmap : (seqComponent q).map Char.utf8Size = List.replicate 20 1 := by
    rw [List.eq_replicate_iff]
    refine ⟨by rw [List.length_map, seqComponent_length], fun n hn => ?_⟩
    obtain ⟨c, hc, rfl⟩ := List.mem_map.1 hn
    exact hone c (hall c hc)
  rw [byteLen, hmap]
  rfl

/-- If one position of a stream has a key, all have. -/
theorem StreamId.objectKey_logKey {stream : StreamId} {K : AtomicKeyspace} {p : UInt64} {path : Str}
    (h : K.objectKey (stream.logKey p) = .ok path) (q : UInt64) : K.objectKey (stream.logKey q) = .ok (K.root ++ stream.logKey q) := by
  have hkey : ∀ q, stream.logKey q = (stream.value ++ "/log".toList) ++ '/' :: seqComponent q := by
    intro q
    unfold StreamId.logKey StreamId.logPrefix
    rw [show "/log/".toList = "/log".toList ++ ['/'] by decide]
    generalize "/log".toList = l
    simp
  have hlast : ∀ q, ∃ d, (stream.logKey q).getLast? = some d ∧ d.isDigit = true := by
    intro q
    have hne : seqComponent q ≠ [] := fun h0 => by
      have := seqComponent_length q
      rw [h0] at this
      cases this
    refine ⟨_, ?_, List.all_eq_true.1 (decDigits_isDigit 20 q.toNat) _ (List.getLast_mem hne)⟩
    rw [StreamId.logKey, List.getLast?_append, List.getLast?_eq_some_getLast hne, Option.some_or]
  obtain ⟨hlen, hvalid⟩ := Keyspace.validate_ok.1 (Keyspace.validate_of_objectKey "key" h)
  have hq : Keyspace.validateIdentifier "key" (stream.logKey q) = .ok () := by
    rw [hkey, Keyspace.validPath_append] at hvalid
    refine Keyspace.validate_ok.2 ⟨?_, by rw [hkey, Keyspace.validPath_append]; exact ⟨hvalid.1, validPath_seqComponent q⟩⟩
    rw [StreamId.logKey, Keyspace.byteLen_append, byteLen_seqComponent] at hlen ⊢
    exact hlen
  unfold AtomicKeyspace.objectKey
  rw [hq, Except.bind, if_neg]
  -- no number ends like the fence
  intro hf
  obtain ⟨t, ht⟩ := List.isSuffixOf_iff_suffix.1 hf
  obtain ⟨d, hd, hdigit⟩ := hlast q
  have hend := congrArg List.getLast? ht
  rw [List.getLast?_append, List.getLast?_append, hd, show "/fences/gc".toList.getLast? = some 'c' by decide, Option.some_or,
    Option.some_or] at hend
  rw [← Option.some.inj hend] at hdigit
  revert hdigit
  decide

/-! ### What is behind a position -/

section
variable (K : AtomicKeyspace) (s : Store) (stream : StreamId)

/-- No event is behind position `n`. -/
def StreamId.Last (n : ℕ) : Prop := ∀ q : UInt64, n < q.toNat → ¬ stream.Present K s q

/-- The next event behind position `n` is at `q`. -/
structure StreamId.Next (n : ℕ) (q : UInt64) : Prop where
  behind : n < q.toNat
  present : stream.Present K s q
  first : ∀ p : UInt64, n < p.toNat → stream.Present K s p → q ≤ p

/-- The keys that begin like the stream's events or its certificates are such. -/
structure StreamId.Alone : Prop where
  events : ∀ key ∈ K.keys s, stream.logPrefix <+: key → ∃ q, key = stream.logKey q
  certificates : ∀ key ∈ K.keys s, Keyspace.floorStart stream.value <+: key → ∃ q, key = stream.certPrefix ++ seqComponent q

end

section
variable {X : Crates} {K : AtomicKeyspace} {B : Backend} {s t : Store} {stream : StreamId} {after p q : UInt64} {n : ℕ} {path : Str}

/-- The first key listed behind a position is the next event, if there is one. -/
theorem StreamId.Alone.head (ha : stream.Alone K s) (hp : stream.Present K s p) (hlt : after < p) :
    ∃ q, (K.keysAfter s (some (stream.logKey after))).head? = some (stream.logKey q) ∧ stream.Next K s after.toNat q := by
  have hmem : ∀ r, stream.Present K s r → after < r → stream.logKey r ∈ K.keysAfter s (some (stream.logKey after)) := by
    intro r hr hlt
    refine AtomicKeyspace.mem_keysAfter.2 ⟨AtomicKeyspace.mem_keys_iff_lookup.2 hr, ?_⟩
    rintro _ ⟨⟩
    exact Keyspace.append_lt_append.2 (seqComponent_lt.2 hlt)
  have hsorted := @AtomicKeyspace.sorted_keysAfter K s (some (stream.logKey after))
  cases hl : K.keysAfter s (some (stream.logKey after)) with
  | nil =>
    have := hmem p hp hlt
    rw [hl] at this
    cases this
  | cons key keys =>
    rw [hl] at hsorted
    have hle : ∀ r, stream.Present K s r → after < r → key ≤ stream.logKey r := by
      intro r hr hlt
      have hr' := hmem r hr hlt
      rw [hl] at hr'
      rcases List.mem_cons.1 hr' with he | hr'
      · exact he.ge
      · exact ((List.pairwise_cons.1 hsorted).1 _ hr').le
    obtain ⟨hkey, hbehind⟩ := AtomicKeyspace.mem_keysAfter.1 (hl ▸ List.mem_cons_self : key ∈ K.keysAfter s (some (stream.logKey after)))
    have hafter := hbehind _ rfl
    -- between two events of the stream
    have hpre : stream.logPrefix <+: key := by
      rcases (hle p hp hlt).lt_or_eq with hkp | rfl
      · refine Keyspace.prefix_of_between (fun hlt' => ?_) hkp
        have hlog : stream.logPrefix ++ [] < stream.logPrefix ++ [] := by
          refine lt_of_le_of_lt ?_ (lt_trans hafter (by rwa [List.append_nil]))
          rw [StreamId.logKey]
          exact Keyspace.append_le_append.2 (not_lt.1 (List.not_lt_nil _))
        exact absurd hlog (lt_irrefl _)
      · exact List.prefix_append _ _
    obtain ⟨q, rfl⟩ := ha.events key hkey hpre
    refine ⟨q, rfl, ?_, AtomicKeyspace.mem_keys_iff_lookup.1 hkey, fun r hr hpr => ?_⟩
    · exact UInt64.lt_iff_toNat_lt.1 (seqComponent_lt.1 (Keyspace.append_lt_append.1 hafter))
    · have := hle r hpr (UInt64.lt_iff_toNat_lt.2 hr)
      exact UInt64.not_lt.1 fun hlt => absurd (Keyspace.append_le_append.1 this) (not_le.2 (seqComponent_lt.2 hlt))

/-- What `next_log_key_after` says. -/
def StreamId.Names (K : AtomicKeyspace) (s : Store) (stream : StreamId) (n : ℕ) : Option UInt64 → Prop
  | none => stream.Last K s n
  | some next => stream.Next K s n next

theorem StreamId.Alone.names (ha : stream.Alone K s) : stream.Names K s after.toNat
    ((((K.keysAfter s (some (stream.logKey after))).take 2).filterMap stream.seqOf).filter (after < ·)).min? := by
  have hpresent : ∀ q, q ∈ ((K.keysAfter s (some (stream.logKey after))).take 2).filterMap stream.seqOf → stream.Present K s q := by
    intro q hq
    obtain ⟨key, hkey, hs⟩ := List.mem_filterMap.1 hq
    rw [seqOf_eq_some.1 hs] at hkey
    exact present_of_mem_keysAfter (List.mem_of_mem_take hkey)
  have hfirst : ∀ p, stream.Present K s p → after < p → ∃ q, q ∈ (((K.keysAfter s (some (stream.logKey after))).take 2).filterMap
      stream.seqOf).filter (after < ·) ∧ stream.Next K s after.toNat q := by
    intro p hp hlt
    obtain ⟨q, hq, hnext⟩ := ha.head hp hlt
    refine ⟨q, List.mem_filter.2 ⟨List.mem_filterMap.2 ⟨_, ?_, seqOf_eq_some.2 rfl⟩, ?_⟩, hnext⟩
    · obtain ⟨rest, hrest⟩ := List.head?_eq_some_iff.1 hq
      rw [hrest, List.take_succ_cons]
      exact List.mem_cons_self
    · exact decide_eq_true (UInt64.lt_iff_toNat_lt.2 hnext.behind)
  generalize hl : (((K.keysAfter s (some (stream.logKey after))).take 2).filterMap stream.seqOf).filter (after < ·) = found at hfirst
  have hmem : ∀ q ∈ found, stream.Present K s q ∧ after < q := by
    rw [← hl]
    intro q hq
    obtain ⟨hq, hlt⟩ := List.mem_filter.1 hq
    exact ⟨hpresent q hq, of_decide_eq_true hlt⟩
  cases hm : found.min? with
  | none =>
    intro p hp hpr
    obtain ⟨q, hq, -⟩ := hfirst p hpr (UInt64.lt_iff_toNat_lt.2 hp)
    rw [List.min?_eq_none_iff.1 hm] at hq
    cases hq
  | some next =>
    obtain ⟨hin, hmin⟩ := List.min?_eq_some_iff.1 hm
    obtain ⟨hpr, hlt⟩ := hmem next hin
    refine ⟨UInt64.lt_iff_toNat_lt.1 hlt, hpr, fun p hp hpresent => ?_⟩
    obtain ⟨q, hq, hnext⟩ := hfirst p hpresent (UInt64.lt_iff_toNat_lt.2 hp)
    exact UInt64.le_trans (hmin q hq) (hnext.first p hp hpresent)

/-- The list behind a position names the next event, or fails. -/
theorem runs_nextLogKeyAfter {r : Except KeyspaceError (Option UInt64)} (ho : ¬ B.omits) (ha : stream.Alone K s)
    (hk : K.objectKey (stream.logKey after) = .ok path) (h : (nextLogKeyAfter K stream after).run.Runs B.exec s r t) :
    t = s ∧ ∃ next, stream.Names K s after.toNat next ∧ InFull Unserved B (.ok next) r := by
  have hanswer : (nextLogKeyAfter K stream after).run.answer s.answers = some (.ok
      ((((K.keysAfter s (some (stream.logKey after))).take 2).filterMap stream.seqOf).filter (after < ·)).min?) := by
    have hlist := @Keyspace.answer_listAfter K s (some (stream.logKey after)) 2 (by decide)
    rw [Option.elim_some, Keyspace.validate_of_objectKey "start_after" hk] at hlist
    rw [nextLogKeyAfter, Op.answer_bind_of_ok hlist]
    rfl
  have hcareful : Careful Unserved B s (nextLogKeyAfter K stream after).run :=
    careful_bindE (Keyspace.careful_listAfter ho _ _) fun _ _ => trivial
  obtain ⟨rfl, hr⟩ := (hcareful.ends hanswer).runs h
  exact ⟨rfl, _, ha.names, hr⟩

/-! ### Answers -/

theorem present_of_found {bytes : Bytes} (h : stream.found X K s q = .ok (some bytes)) : stream.Present K s q := Keyspace.lookup_of_seen h

theorem found_eq_none (hk : K.objectKey (stream.logKey p) = .ok path) : stream.found X K s q = .ok none ↔ ¬ stream.Present K s q := by
  rw [StreamId.found, Keyspace.seen_eq_none (StreamId.objectKey_logKey hk q), StreamId.Present, not_not]

theorem StreamId.EventAt.present {e : Envelope} (h : stream.EventAt X K s q.toNat e) : stream.Present K s q := by
  obtain ⟨seq, hseq, bytes, hb, -⟩ := h
  rw [UInt64.toNat_inj.1 hseq] at hb
  exact present_of_found hb

/-- A verified hint names an event. -/
theorem runs_verifiedTailHint {r : Option TailHint} (h : (verifiedTailHint X K stream).Runs B.exec s r t) :
    t = s ∧ ∀ hint, r = some hint → ∃ e, stream.EventAt X K s hint.highestValidatedDenseSeq.toNat e := by
  have hreads : Keyspace.Key.AllowsReads K Req.Looks := Keyspace.allowsReads_of Keyspace.looks_of_reads
  obtain ⟨r', u, hread, h⟩ := Prog.runs_bind.1 h
  obtain rfl := (hread.keep (J := (· = s)) (every_readTailHint hreads stream) (fun v q x w hv hq hx => hv ▸ Backend.looks_store hq (.inl hx)) rfl).1
  rcases r' with e | _ | hint
  · obtain ⟨rfl, rfl⟩ := Prog.runs_ret.1 h
    exact ⟨rfl, nofun⟩
  · obtain ⟨rfl, rfl⟩ := Prog.runs_ret.1 h
    exact ⟨rfl, nofun⟩
  obtain ⟨found, v, hget, h⟩ := Prog.runs_bind.1 h
  obtain ⟨rfl, hfound⟩ := Keyspace.runs_get hget
  rcases found with e | _ | bytes
  · obtain ⟨rfl, rfl⟩ := Prog.runs_ret.1 h
    exact ⟨rfl, nofun⟩
  · obtain ⟨rfl, rfl⟩ := Prog.runs_ret.1 h
    exact ⟨rfl, nofun⟩
  obtain ⟨rfl, rfl⟩ := Prog.runs_ret.1 h
  refine ⟨rfl, fun hint' hr => ?_⟩
  split at hr
  · next hconf =>
    cases hr
    obtain ⟨e, he, -⟩ := (Option.any_eq_true _ _).1 hconf
    refine ⟨e, _, rfl, bytes, ?_, he⟩
    rcases hfound with hfound | ⟨-, _, -, hfound⟩
    · exact hfound.symm
    · cases hfound
  · cases hr

end

/-! ### The answers of a read -/

/-- Position `n` is not below the floor. -/
def StreamId.Within (K : AtomicKeyspace) (s : Store) (stream : StreamId) (n : ℕ) : Prop :=
  ∀ f : UInt64, K.Certified s stream.certPrefix f → f.toNat ≤ n

/-- The floor cannot be looked up: a key the walk would go on behind is no identifier. -/
def StreamId.Floorless (K : AtomicKeyspace) (s : Store) (stream : StreamId) : Prop :=
  ∃ fuel e, (Keyspace.trimFloor K fuel stream.value).run.answer s.answers = some (.error e)

/-- What a read of at most `limit` events behind position `n` says. -/
inductive StreamId.Says (X : Crates) (K : AtomicKeyspace) (B : Backend) (s : Store) (stream : StreamId) (limit n : ℕ) : Replay → Prop where
  | page {events : List Envelope} {complete : Bool} (hw : stream.Within K s (n + 1)) (he : stream.Slice X K s (n + 1) events)
      (hne : events ≠ []) (hl : events.length ≤ limit) (hc : complete = true ∨ events.length < limit → stream.Last K s (n + events.length)) :
      Says X K B s stream limit n (.page events complete)
  | empty (hw : n + 1 < 2 ^ 64 → stream.Within K s (n + 1)) (h : stream.Last K s n) : Says X K B s stream limit n .empty
  | hole {events : List Envelope} {q next : UInt64} (hw : stream.Within K s (n + 1)) (he : stream.Slice X K s (n + 1) events)
      (hl : events.length < limit) (hq : q.toNat = n + 1 + events.length) (ha : ¬ stream.Present K s q) (hn : stream.Next K s q.toNat next) :
      Says X K B s stream limit n (.corrupt (seqRange q next))
  | damaged {events : List Envelope} {q : UInt64} {bytes : Bytes} (hw : stream.Within K s (n + 1)) (he : stream.Slice X K s (n + 1) events)
      (hl : events.length < limit) (hq : q.toNat = n + 1 + events.length) (hb : stream.found X K s q = .ok (some bytes))
      (hd : Envelope.decodeAndVerify X stream q bytes = none) : Says X K B s stream limit n (.corrupt [q])
  | ungrounded {bytes : Bytes} (hb : stream.found X K s 0 = .ok (some bytes)) (hd : Envelope.decodeAndVerify X stream 0 bytes = none) :
      Says X K B s stream limit n (.corrupt [0])
  | notFound (h : stream.found X K s 0 = .ok none) : Says X K B s stream limit n (.notFound stream)
  | expired {floor : UInt64} (h : Keyspace.IsMax (K.Certified s stream.certPrefix) (some floor)) (hlt : n + 1 < floor.toNat) :
      Says X K B s stream limit n (.offsetExpired floor)
  | failed {operation : String} (hf : B.faults) : Says X K B s stream limit n (.unavailable operation)
  | unopened {operation : String} {e : KeyspaceError} (h : stream.found X K s 0 = .error e) : Says X K B s stream limit n (.unavailable operation)
  | unread {operation : String} {events : List Envelope} {q : UInt64} {e : KeyspaceError} (hw : stream.Within K s (n + 1))
      (he : stream.Slice X K s (n + 1) events) (hl : events.length < limit) (hq : q.toNat = n + 1 + events.length)
      (h : stream.found X K s q = .error e) : Says X K B s stream limit n (.unavailable operation)
  | floorless {operation : String} (h : stream.Floorless K s) : Says X K B s stream limit n (.unavailable operation)
  | unqualified {witness : String} {seqs : List UInt64} (h : B.faults ∨ limit = 0) : Says X K B s stream limit n (.backendUnqualified witness seqs)

section
variable {X : Crates} {K : AtomicKeyspace} {B : Backend} {s t : Store} {stream : StreamId} {after p q endSeq : UInt64} {limit n fuel : ℕ}
  {ids : ℕ → Bytes} {path : Str} {walked : Walked} {replay : Replay}

/-- The directory of the certificates is an identifier where the events have keys. -/
theorem floorStart_valid (hk : K.objectKey (stream.logKey p) = .ok path) :
    Keyspace.floorStart stream.value = stream.value ++ '/' :: "trims".toList ∧
      Keyspace.validateIdentifier "start_after" (Keyspace.floorStart stream.value) = .ok () := by
  obtain ⟨hlen, hvalid⟩ := Keyspace.validate_ok.1 (Keyspace.validate_of_objectKey "key" hk)
  have hkey : stream.logKey p = stream.value ++ '/' :: ("log/".toList ++ seqComponent p) := by
    unfold StreamId.logKey StreamId.logPrefix
    rw [show "/log/".toList = '/' :: "log/".toList from rfl, List.append_assoc, List.cons_append]
  rw [hkey] at hlen hvalid
  have hvalue : ValidPath stream.value := (Keyspace.validPath_append.1 hvalid).1
  have hne : stream.value ≠ [] := by
    intro hnil
    rw [hnil] at hvalue
    exact Keyspace.not_validPath_nil hvalue
  have hstart : Keyspace.floorStart stream.value = stream.value ++ '/' :: "trims".toList := by rw [Keyspace.floorStart, if_neg hne]
  rw [hstart]
  refine ⟨rfl, Keyspace.validate_ok.2 ⟨?_, Keyspace.validPath_append.2 ⟨hvalue, by decide⟩⟩⟩
  have hlog : byteLen ('/' :: ("log/".toList ++ seqComponent p)) = 25 := by
    rw [← List.cons_append, Keyspace.byteLen_append, byteLen_seqComponent]
    decide
  have htrims : byteLen ('/' :: "trims".toList) = 6 := by decide
  rw [Keyspace.byteLen_append, hlog] at hlen
  rw [Keyspace.byteLen_append, htrims]
  omega

/-- While nothing was trimmed, the floor can be looked up. -/
theorem StreamId.Alone.floor (ha : stream.Alone K s) (hw : stream.Within K s 1) (hk : K.objectKey (stream.logKey p) = .ok path) :
    ¬ stream.Floorless K s := by
  rintro ⟨fuel, e, he⟩
  refine Keyspace.trimFloor_ok (trimCertPrefix_of_objectKey hk) (floorStart_valid hk).2 (fun keys hnodup hkeys => ?_) he
  have hsub : keys ⊆ [stream.certPrefix ++ seqComponent 0, stream.certPrefix ++ seqComponent 1] := by
    intro key hkey
    obtain ⟨hin, hpre⟩ := hkeys key hkey
    obtain ⟨q, rfl⟩ := ha.certificates key hin hpre
    have hq := hw q (AtomicKeyspace.mem_keys_iff_lookup.1 hin)
    rcases Nat.le_one_iff_eq_zero_or_eq_one.1 hq with hq | hq
    · rw [show q = 0 from UInt64.toNat_inj.1 hq]
      exact List.mem_cons_self
    · rw [show q = 1 from UInt64.toNat_inj.1 hq]
      exact List.mem_cons_of_mem _ List.mem_cons_self
  have := (hnodup.subperm hsub).length_le
  exact this.trans_lt (show 2 < 1000 by decide)

theorem length_takeChunk {answers : List (UInt64 × Except KeyspaceError (Option Bytes))} {events : List Envelope}
    (h : takeChunk X stream answers events = .ok walked) : walked.events.length ≤ events.length + answers.length := by
  induction answers generalizing events with
  | nil =>
    cases h
    exact le_rfl
  | cons answer answers ih =>
    obtain ⟨seq, _ | _ | bytes⟩ := answer
    · cases h
    · cases h
      exact Nat.le_add_right _ _
    · rw [takeChunk] at h
      split at h
      · have := ih h
        rw [List.length_append, List.length_singleton] at this
        rw [List.length_cons]
        omega
      · cases h

/-- A walk returns no more than its limit. -/
theorem length_readLoop {rounds : ℕ} {events : List Envelope} {seq : UInt64} (hl : events.length ≤ limit)
    (h : (readLoop X K stream limit rounds events seq).Runs B.exec s (.ok walked) t) : walked.events.length ≤ limit := by
  induction rounds generalizing events seq s with
  | zero =>
    cases (Prog.runs_ret.1 h).1
    exact hl
  | succ rounds ih =>
    rw [readLoop] at h
    obtain ⟨results, u, -, hr⟩ := Prog.runs_bind.1 h
    clear h
    have hlen : ∀ w, takeChunk X stream ((chunkFrom (min fetchParallelism (limit - events.length)) seq).zip results) events = .ok w →
        w.events.length ≤ limit := by
      intro w hw
      have hchunk := length_takeChunk hw
      have hzip := length_chunkFrom_le (min fetchParallelism (limit - events.length)) seq
      rw [List.length_zip] at hchunk
      omega
    generalize takeChunk X stream ((chunkFrom (min fetchParallelism (limit - events.length)) seq).zip results) events = taken at hlen hr
    rcases taken with replay | ⟨events', _ | q⟩
    · cases (Prog.runs_ret.1 hr).1
    · have hle := hlen _ rfl
      dsimp only at hr
      split at hr
      · cases (Prog.runs_ret.1 hr).1
        exact hle
      split at hr
      · cases (Prog.runs_ret.1 hr).1
        exact hle
      · exact ih hle hr
    · cases (Prog.runs_ret.1 hr).1
      exact hlen _ rfl

/-- Healing changes nothing of the page. -/
theorem runs_readHealed {endWitnessed : Bool} (h : (readHealed X K fuel ids stream after walked endSeq endWitnessed).Runs B.exec s replay t) :
    replay = if walked.events = [] then .empty else .page walked.events endWitnessed := by
  have hret : ∀ u, (if walked.events = [] then pure .empty else pure (.page walked.events endWitnessed) : Quiet Replay).Runs B.exec u replay t →
      replay = if walked.events = [] then .empty else .page walked.events endWitnessed := by
    intro u hr
    split at hr
    · next hnil => rw [(Prog.runs_ret.1 hr).1, if_pos hnil]
    · next hne => rw [(Prog.runs_ret.1 hr).1, if_neg hne]
  cases endWitnessed with
  | true =>
    obtain ⟨u, v, -, hr⟩ := Prog.runs_bind.1 h
    exact hret _ hr
  | false =>
    obtain ⟨u, v, -, hr⟩ := Prog.runs_bind.1 h
    exact hret _ hr

/-- A walk that nothing follows. -/
theorem runs_readEnd (hw : stream.Within K s (n + 1)) (he : stream.Slice X K s (n + 1) walked.events) (hl : walked.events.length ≤ limit)
    (hend : endSeq.toNat = n + walked.events.length) (hlast : stream.Last K s endSeq.toNat) (hk : K.objectKey (stream.logKey p) = .ok path)
    (h : (readEnd X K fuel ids stream after walked endSeq).Runs B.exec s replay t) : stream.Says X K B s limit n replay := by
  have hdone : ∀ endWitnessed, stream.Says X K B s limit n (if walked.events = [] then .empty else .page walked.events endWitnessed) := by
    intro endWitnessed
    split
    · next hnil =>
      rw [hnil, List.length_nil, Nat.add_zero] at hend
      exact .empty (fun _ => hw) (hend ▸ hlast)
    · next hne => exact .page hw he hne hl fun _ => hend ▸ hlast
  unfold readEnd at h
  obtain ⟨verified, u, hhint, hr⟩ := Prog.runs_bind.1 h
  obtain ⟨rfl, hverified⟩ := runs_verifiedTailHint hhint
  clear h
  split at hr
  · next beyond hbeyond =>
    -- the event a verified hint names is not behind the end
    obtain ⟨hint, hv, hlt⟩ := Option.bind_eq_some_iff.1 hbeyond
    split at hlt
    · next hlt' =>
      obtain ⟨e, hev⟩ := hverified hint hv
      exact absurd hev.present (hlast _ (UInt64.lt_iff_toNat_lt.1 hlt'))
    · cases hlt
  · dsimp only at hr
    split at hr
    · next hcut =>
      obtain ⟨r, v, hget, hr⟩ := Prog.runs_bind.1 hr
      obtain ⟨rfl, hfound⟩ := Keyspace.runs_get hget
      have hbehind : (endSeq + 1).toNat = endSeq.toNat + 1 := toNat_succ (UInt64.ne_of_lt hcut.2.2)
      have hnone : stream.found X K v (endSeq + 1) = .ok none := (found_eq_none hk).2 (hlast _ (by omega))
      rw [StreamId.found] at hnone
      rw [hnone] at hfound
      rcases hfound with rfl | ⟨hf, e, -, rfl⟩
      · rw [runs_readHealed hr]
        exact hdone _
      · rw [(Prog.runs_ret.1 hr).1]
        exact .failed hf
    · rw [runs_readHealed hr]
      exact hdone _

/-- A walk that an event follows. -/
theorem runs_readSuffix {next : UInt64} (hw : stream.Within K s (n + 1)) (hwalk : stream.Walks X K B s limit (n + 1) (.ok walked))
    (hle : walked.events.length ≤ limit) (hlimit : limit ≠ 0) (hn : n + 1 < 2 ^ 64) (hend : endSeq.toNat = n + walked.events.length) (hnext : stream.Next K s endSeq.toNat next)
    (hk : K.objectKey (stream.logKey p) = .ok path) (h : (readSuffix X K fuel ids stream walked next).Runs B.exec s replay t) :
    stream.Says X K B s limit n replay := by
  have hlt := hnext.behind
  have hmax := next.toNat_lt
  cases hwalk with
  | @absent events q he hl hq ha =>
    have hgone : ¬ stream.Present K s q := (found_eq_none hk).1 ha
    have hne : next ≠ q := fun hne => hgone (hne ▸ hnext.present)
    have hne' : next.toNat ≠ q.toNat := fun h => hne (UInt64.toNat_inj.1 h)
    dsimp only at hend
    unfold readSuffix at h
    dsimp only at h
    rw [if_neg hne] at h
    rw [(Prog.runs_ret.1 h).1]
    exact .hole hw he hl (by omega) hgone ⟨by omega, hnext.present, fun r hr => hnext.first r (by omega)⟩
  | @whole events he hl =>
    dsimp only at hend
    unfold readSuffix at h
    dsimp only at h
    have hne : events ≠ [] := by
      rintro rfl
      rw [List.length_nil] at hl
      omega
    obtain ⟨last, hlast⟩ : ∃ last, events.getLast? = some last := by
      rw [List.getLast?_eq_some_getLast hne]
      exact ⟨_, rfl⟩
    rw [hlast] at h
    have hseq := StreamId.slice_getLast? he hlast
    dsimp only at h
    rw [if_pos (UInt64.lt_iff_toNat_lt.2 (by omega))] at h
    have hpage : replay = .page events false := by
      obtain ⟨hint, u, hhint, hr⟩ := Prog.runs_bind.1 h
      split at hr
      · obtain ⟨r, v, -, hr⟩ := Prog.runs_bind.1 hr
        exact (Prog.runs_ret.1 hr).1
      · exact (Prog.runs_ret.1 hr).1
    rw [hpage]
    refine .page hw he hne hle ?_
    rintro (hc | hc)
    · cases hc
    · omega

/-- A read says what the log is, or that a request was not answered. -/
theorem runs_readFrom (ho : ¬ B.omits) (ha : stream.Alone K s) (hfuel : (K.keys s).length < fuel) (hlimit : limit ≠ 0) (hmax : after ≠ maxSeq)
    (hk : K.objectKey (stream.logKey p) = .ok path) (h : (readFrom X K fuel ids stream after limit).Runs B.exec s replay t) :
    stream.Says X K B s limit after.toNat replay := by
  have hsucc : (after + 1).toNat = after.toNat + 1 := toNat_succ hmax
  have hlt := (after + 1).toNat_lt
  have hcert := trimCertPrefix_of_objectKey hk
  unfold readFrom at h
  obtain ⟨r, u, hfloor, hr⟩ := Prog.runs_bind.1 h
  clear h
  obtain ⟨rfl, res, hanswer, htells, hres⟩ := Keyspace.answered_trimFloor ho hcert hfuel hfloor
  have hdir := Keyspace.trimCertPrefix_eq hcert
  rcases r with e | floor
  · rw [(Prog.runs_ret.1 hr).1]
    rcases hres with rfl | ⟨hf, -⟩
    · exact .floorless ⟨_, e, hanswer⟩
    · exact .failed hf
  obtain rfl : res = .ok floor := by
    rcases hres with hres | ⟨-, e, -, hres⟩
    · exact hres.symm
    · cases hres
  have hismax : Keyspace.IsMax (K.Certified u stream.certPrefix) floor := by
    rw [hdir]
    exact htells
  dsimp only at hr
  split at hr
  · next firstRetained hexp =>
    obtain ⟨f, rfl, hf⟩ := Option.bind_eq_some_iff.1 hexp
    split at hf
    · next hbelow =>
      cases hf
      rw [(Prog.runs_ret.1 hr).1]
      exact .expired hismax (by rw [← hsucc]; exact UInt64.lt_iff_toNat_lt.1 hbelow)
    · cases hf
  · next hexp =>
    have hwithin : stream.Within K u (after.toNat + 1) := by
      intro f hf
      cases floor with
      | none => exact absurd hf (hismax f)
      | some f' =>
        have hnot : ¬ after + 1 < f' := by
          intro hlt
          rw [Option.bind_some, if_pos hlt] at hexp
          cases hexp
        have hle := UInt64.le_iff_toNat_le.1 (hismax.2 f hf)
        have hnot' : ¬ (after + 1).toNat < f'.toNat := fun h => hnot (UInt64.lt_iff_toNat_lt.2 h)
        omega
    obtain ⟨w, v, hloop, hr⟩ := Prog.runs_bind.1 hr
    obtain ⟨rfl, hwalk⟩ := (@ends_readLoop X K B _ stream limit (after.toNat + 1) [] _ _ trivial hsucc (Nat.pos_of_ne_zero hlimit) le_rfl).runs hloop
    rcases w with replay' | walked
    · rw [(Prog.runs_ret.1 hr).1]
      cases hwalk with
      | damaged he hl hq hb hd => exact .damaged hwithin he hl hq hb hd
      | failed he hl hq hf =>
        rcases hf with hf | ⟨e, hfound⟩
        · exact .failed hf
        · exact .unread hwithin he hl hq hfound
    dsimp only at hr
    obtain ⟨hslice, hle⟩ : stream.Slice X K v (after.toNat + 1) walked.events ∧ walked.events.length ≤ limit := by
      refine ⟨?_, length_readLoop (Nat.zero_le _) hloop⟩
      cases hwalk with
      | whole he => exact he
      | absent he => exact he
    have hend : ((walked.events.getLast?.map (·.seq)).getD after).toNat = after.toNat + walked.events.length := by
      cases hl : walked.events.getLast? with
      | none =>
        rw [List.getLast?_eq_none_iff.1 hl]
        rfl
      | some e =>
        have := StreamId.slice_getLast? hslice hl
        rw [Option.map_some, Option.getD_some]
        change e.seq.toNat = _
        omega
    generalize (walked.events.getLast?.map (·.seq)).getD after = endSeq at hend hr
    obtain ⟨named, x, hlist, hr⟩ := Prog.runs_bind.1 hr
    obtain ⟨rfl, next, hnames, hnamed⟩ := runs_nextLogKeyAfter ho ha (StreamId.objectKey_logKey hk _) hlist
    rcases named with e | named
    · rw [(Prog.runs_ret.1 hr).1]
      rcases hnamed with hnamed | ⟨hf, -⟩
      · cases hnamed
      · exact .unqualified (.inl hf)
    obtain rfl : named = next := by
      rcases hnamed with hnamed | ⟨-, e, -, hnamed⟩
      · exact Except.ok.inj hnamed
      · cases hnamed
    cases named with
    | none => exact runs_readEnd hwithin hslice hle hend hnames hk hr
    | some next => exact runs_readSuffix hwithin hwalk hle hlimit (by omega) hend hnames hk hr

theorem runs_read (ho : ¬ B.omits) (ha : stream.Alone K s) (hfuel : (K.keys s).length < fuel)
    (h : (read X K fuel ids stream after limit).Runs B.exec s replay t) : stream.Says X K B s limit after.toNat replay := by
  unfold read at h
  split at h
  · next hz =>
    rw [(Prog.runs_ret.1 h).1]
    exact .unqualified (.inr hz)
  next hlimit =>
  obtain ⟨r, u, hget, hr⟩ := Prog.runs_bind.1 h
  clear h
  obtain ⟨rfl, hfound⟩ := Keyspace.runs_get hget
  rcases r with e | _ | genesis
  · rw [(Prog.runs_ret.1 hr).1]
    rcases hfound with hfound | ⟨hf, -⟩
    · exact .unopened hfound.symm
    · exact .failed hf
  · rw [(Prog.runs_ret.1 hr).1]
    rcases hfound with hfound | ⟨-, e, -, hfound⟩
    · exact .notFound hfound.symm
    · cases hfound
  have hgenesis : stream.found X K u 0 = .ok (some genesis) := by
    rcases hfound with hfound | ⟨-, e, -, hfound⟩
    · exact hfound.symm
    · cases hfound
  have hk : K.objectKey (stream.logKey 0) = .ok (K.root ++ stream.logKey 0) := Keyspace.objectKey_of_seen hgenesis
  dsimp only at hr
  split at hr
  · next hd =>
    rw [(Prog.runs_ret.1 hr).1]
    exact .ungrounded hgenesis hd
  split at hr
  · next hmax =>
    rw [(Prog.runs_ret.1 hr).1, hmax]
    have hval : maxSeq.toNat = 18446744073709551615 := by decide
    refine .empty (fun hlt => by omega) fun q hq => ?_
    have := q.toNat_lt
    omega
  · next hmax => exact runs_readFrom ho ha hfuel hlimit hmax hk hr

end

end YeetzS3.Streams
