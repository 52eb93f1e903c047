import YeetzS3.Streams.Density
import YeetzS3.Streams.Replay

/-!
# Strict windows

`read_range` of a log that nobody else writes, on a backend whose lists are honest and whose requests may fail. A page is the
window cut at its limit, and an error is the floor or what is wrong at the lowest position that is not fine. Following the pages
behind their last events, with any limits, gives the window once (`strict_windows`).
-/

namespace YeetzS3.Streams

open Conc
open Keyspace (AtomicKeyspace Unserved)

/-- Follow the pages of a window behind their last events, with these limits: the events, and whether the end was reached. -/
def followRange (X : Crates) (K : AtomicKeyspace) (fuel : ℕ) (stream : StreamId) (throughSeq : UInt64) :
    List ℕ → UInt64 → StreamOp (List Envelope × Bool)
  | [], _ => pure ([], false)
  | limit :: limits, afterSeq => do
    let page ← readRange X K fuel stream afterSeq throughSeq limit
    if page.reachedEnd then pure (page.events, true)
    else match page.events.getLast? with
      | none => pure ([], false)
      | some last => do
        let rest ← followRange X K fuel stream throughSeq limits last.seq
        pure (page.events ++ rest.1, rest.2)

section
variable (X : Crates) (K : AtomicKeyspace) (B : Backend) (s : Store) (stream : StreamId)

/-- What a strict fetch returns when every request is answered. -/
def StreamId.fetched (operation : String) (q : UInt64) : Except StreamsError (Option Envelope) :=
  match stream.found X K s q with
  | .error e => .error (mapEventReadError stream q operation e)
  | .ok none => .ok none
  | .ok (some bytes) => (verify X stream q bytes).map some

/-- The failure of a request of a strict read that was not answered. -/
def Unfetched (e : StreamsError) : Prop := ∃ operation, e = .unavailable operation

/-- What is wrong at a position, and how a strict read says it. -/
inductive StreamId.Lacks (q : UInt64) : StreamsError → Prop where
  | missing (h : ¬ stream.Present K s q) : StreamId.Lacks q (.eventMissing stream q)
  | damaged {bytes : Bytes} (hb : stream.found X K s q = .ok (some bytes)) (hd : Envelope.decodeAndVerify X stream q bytes = none) :
      StreamId.Lacks q (.corrupt stream [q])
  | unreadable {e : KeyspaceError} (h : stream.found X K s q = .error e) :
      StreamId.Lacks q (mapEventReadError stream q "read_range: fetch" e)

/-- What a strict read of `m` positions from `n` on says. -/
inductive StreamId.Strict (n m : ℕ) : Except StreamsError (List Envelope) → Prop where
  | whole {events : List Envelope} (he : stream.Slice X K s n events) (hl : events.length = m) : StreamId.Strict n m (.ok events)
  | lacks {events : List Envelope} {q : UInt64} {err : StreamsError} (he : stream.Slice X K s n events) (hl : events.length < m)
      (hq : q.toNat = n + events.length) (h : stream.Lacks X K s q err) : StreamId.Strict n m (.error err)
  | failed {err : StreamsError} (hf : B.faults) (h : Unfetched err) : StreamId.Strict n m (.error err)

/-- The stream is there: its name, its genesis, and a floor to look up. -/
structure StreamId.Grounded : Prop where
  named : validateSegment "stream id" stream.value = .ok ()
  genesis : ∃ genesis, stream.fetched X K s "read_range: genesis" 0 = .ok (some genesis)
  floor : ¬ stream.Floorless K s

/-- What `read_range` says of at most `limit` positions of the window behind `n` through `m`. -/
inductive StreamId.Ranges (limit n m : ℕ) : Except StreamsError (List Envelope × Bool) → Prop where
  | page {events : List Envelope} (hg : stream.Grounded X K s) (hw : stream.Within K s (n + 1)) (he : stream.Slice X K s (n + 1) events)
      (hl : events.length = min (m - n) limit) : StreamId.Ranges limit n m (.ok (events, decide (m - n ≤ limit)))
  | lacks {events : List Envelope} {q : UInt64} {err : StreamsError} (hg : stream.Grounded X K s) (hw : stream.Within K s (n + 1))
      (he : stream.Slice X K s (n + 1) events) (hl : events.length < min (m - n) limit) (hq : q.toNat = n + 1 + events.length)
      (h : stream.Lacks X K s q err) : StreamId.Ranges limit n m (.error err)
  | expired {floor : UInt64} (hg : stream.Grounded X K s) (h : Keyspace.IsMax (K.Certified s stream.certPrefix) (some floor)) (hlt : n + 1 < floor.toNat) :
      StreamId.Ranges limit n m (.error (.offsetExpired stream floor))
  | unnamed {err : StreamsError} (h : validateSegment "stream id" stream.value = .error err) : StreamId.Ranges limit n m (.error err)
  | notFound (h : stream.fetched X K s "read_range: genesis" 0 = .ok none) : StreamId.Ranges limit n m (.error (.streamNotFound stream))
  | ungrounded {err : StreamsError} (h : stream.fetched X K s "read_range: genesis" 0 = .error err) :
      StreamId.Ranges limit n m (.error err)
  | floorless {fuel : ℕ} {e : KeyspaceError} {genesis : Envelope} (hg : stream.fetched X K s "read_range: genesis" 0 = .ok (some genesis))
      (h : (Keyspace.trimFloor K fuel stream.value).run.answer s.answers = some (.error e)) :
      StreamId.Ranges limit n m (.error (mapKeyspace "read_range: trim floor" e))
  | failed {err : StreamsError} (hf : B.faults) (h : Unfetched err) : StreamId.Ranges limit n m (.error err)

/-- The window behind `n` through `m` is all there: these events. -/
structure StreamId.WholeWindow (n m : ℕ) (events : List Envelope) : Prop where
  grounded : stream.Grounded X K s
  within : stream.Within K s (n + 1)
  slice : stream.Slice X K s (n + 1) events
  length : events.length = m - n

end

section
variable {X : Crates} {K : AtomicKeyspace} {B : Backend} {s t : Store} {stream : StreamId} {after p q through : UInt64}
  {limit m n k fuel : ℕ} {events : List Envelope} {path : Str}

/-! ### Fetches -/

theorem ends_strictFetch (seq : UInt64) (operation : String) : (strictFetch X K stream seq operation).run.Ends B.exec
    (fun r t => t = s ∧ InFull Unfetched B (stream.fetched X K s operation seq) r) s := by
  unfold strictFetch mapErr
  rw [bind_assoc]
  refine Prog.ends_attempt_bind.2 ((Keyspace.ends_get (stream.logKey seq)).imp ?_)
  rintro r t ⟨rfl, rfl | ⟨hf, e, ⟨op, rfl⟩, rfl⟩⟩
  · unfold StreamId.fetched
    unfold StreamId.found
    cases Keyspace.seen X.toOutside K t (stream.logKey seq) with
    | error e => exact ⟨rfl, .inl rfl⟩
    | ok found =>
      cases found with
      | none => exact ⟨rfl, .inl rfl⟩
      | some bytes =>
        cases hv : verify X stream seq bytes with
        | error e =>
          simp only [pure_bind, hv]
          exact ⟨rfl, .inl rfl⟩
        | ok e =>
          simp only [pure_bind, hv]
          exact ⟨rfl, .inl rfl⟩
  · exact ⟨rfl, .inr ⟨hf, _, ⟨operation, rfl⟩, rfl⟩⟩

theorem ends_strictChunk (seqs : List UInt64) : (strictChunk X K stream seqs).Ends B.exec (fun results t => t = s ∧
    List.Forall₂ (fun seq result => InFull Unfetched B (stream.fetched X K s "read_range: fetch" seq) result) seqs results) s := by
  induction seqs with
  | nil => exact ⟨rfl, .nil⟩
  | cons seq seqs ih =>
    refine Prog.ends_bind.2 ((ends_strictFetch seq "read_range: fetch").imp ?_)
    rintro result t ⟨rfl, hr⟩
    refine Prog.ends_bind.2 (ih.imp ?_)
    rintro results t ⟨rfl, hrs⟩
    exact ⟨rfl, .cons hr hrs⟩

theorem length_chunkFrom {seq : UInt64} (h : seq.toNat + k ≤ 2 ^ 64) : (chunkFrom k seq).length = k := by
  induction k generalizing seq with
  | zero => rfl
  | succ k ih =>
    rw [chunkFrom, List.length_cons]
    cases hs : checkedSucc seq with
    | none =>
      have := toNat_lt_of_checkedSucc.1 hs
      obtain rfl : k = 0 := by omega
      rfl
    | some next =>
      dsimp only
      rw [ih (by rw [toNat_of_checkedSucc hs]; omega)]

/-- What a fetch says of its position. -/
theorem fetched_cases (hk : K.objectKey (stream.logKey p) = .ok path) (q : UInt64) :
    (∃ e, stream.fetched X K s "read_range: fetch" q = .ok (some e) ∧ stream.EventAt X K s q.toNat e) ∨
    (stream.fetched X K s "read_range: fetch" q = .ok none ∧ stream.Lacks X K s q (.eventMissing stream q)) ∨
    ∃ err, stream.fetched X K s "read_range: fetch" q = .error err ∧ stream.Lacks X K s q err := by
  unfold StreamId.fetched
  cases hf : stream.found X K s q with
  | error e => exact .inr (.inr ⟨_, rfl, .unreadable hf⟩)
  | ok found =>
    cases found with
    | none => exact .inr (.inl ⟨rfl, .missing ((found_eq_none hk).1 hf)⟩)
    | some bytes =>
      dsimp only
      unfold verify
      cases hd : Envelope.decodeAndVerify X stream q bytes with
      | none => exact .inr (.inr ⟨_, rfl, .damaged hf hd⟩)
      | some e => exact .inl ⟨e, rfl, q, rfl, bytes, hf, hd⟩

theorem chunkFrom_succ (k : ℕ) (seq : UInt64) : chunkFrom (k + 1) seq = seq :: (checkedSucc seq).elim [] (chunkFrom k) := by
  rw [chunkFrom]
  cases checkedSucc seq <;> rfl

/-- One event more in front. -/
theorem StreamId.Strict.cons {r : Except StreamsError (List Envelope)} {e : Envelope} (he : stream.EventAt X K s n e)
    (h : stream.Strict X K B s (n + 1) m r) : stream.Strict X K B s n (m + 1) (r.map (e :: ·)) := by
  cases h with
  | whole hs hl => exact .whole ⟨he, hs⟩ (by rw [List.length_cons, hl])
  | @lacks events q err hs hl hq h =>
    have hes : stream.Slice X K s n (e :: events) := ⟨he, hs⟩
    refine .lacks hes ?_ ?_ h
    · rw [List.length_cons]
      omega
    · rw [List.length_cons]
      omega
  | failed hf h => exact .failed hf h

theorem takeStrict_says {seq : UInt64} {results : List (Except StreamsError (Option Envelope))}
    (hk : K.objectKey (stream.logKey p) = .ok path) (hlen : seq.toNat + k ≤ 2 ^ 64)
    (hr : List.Forall₂ (fun seq result => InFull Unfetched B (stream.fetched X K s "read_range: fetch" seq) result) (chunkFrom k seq) results) :
    stream.Strict X K B s seq.toNat k (takeStrict stream ((chunkFrom k seq).zip results)) := by
  induction k generalizing seq results with
  | zero => exact .whole trivial rfl
  | succ k ih =>
    rw [chunkFrom_succ] at hr ⊢
    obtain ⟨result, results, hres, hrest, rfl⟩ := List.forall₂_cons_left_iff.1 hr
    rw [List.zip_cons_cons]
    rcases hres with rfl | ⟨hf, e, he, rfl⟩
    swap
    · exact .failed hf he
    have hnone : stream.Slice X K s seq.toNat [] := trivial
    rcases @fetched_cases X K s stream p _ hk seq with ⟨e, hfetch, hev⟩ | ⟨hfetch, hlack⟩ | ⟨err, hfetch, hlack⟩
    · rw [hfetch]
      refine StreamId.Strict.cons hev ?_
      cases hs : checkedSucc seq with
      | none =>
        have := toNat_lt_of_checkedSucc.1 hs
        obtain rfl : k = 0 := by omega
        exact .whole trivial rfl
      | some next =>
        rw [hs] at hrest
        have hnext := toNat_of_checkedSucc hs
        rw [← hnext]
        exact ih (by omega) hrest
    · rw [hfetch]
      exact .lacks hnone (Nat.succ_pos _) rfl hlack
    · rw [hfetch]
      exact .lacks hnone (Nat.succ_pos _) rfl hlack

/-! ### One window -/

theorem Strict.append {r : Except StreamsError (List Envelope)} (hs : stream.Slice X K s n events)
    (h : stream.Strict X K B s (n + events.length) m r) : stream.Strict X K B s n (events.length + m) (r.map (events ++ ·)) := by
  induction events generalizing n with
  | nil =>
    rw [List.length_nil, Nat.zero_add]
    rcases r with _ | _ <;> exact h
  | cons e events ih =>
    rw [List.length_cons, ← Nat.add_assoc, Nat.add_right_comm] at h
    have hcons := StreamId.Strict.cons hs.1 (ih hs.2 h)
    rw [List.length_cons, Nat.add_right_comm]
    rcases r with _ | _ <;> exact hcons

theorem ends_rangeLoop {rounds left : ℕ} {next : UInt64} (hk : K.objectKey (stream.logKey p) = .ok path) (hrounds : left ≤ rounds)
    (hlen : next.toNat + left ≤ 2 ^ 64) : (rangeLoop X K stream rounds left next).run.Ends B.exec
      (fun r t => t = s ∧ stream.Strict X K B s next.toNat left r) s := by
  induction rounds generalizing left next with
  | zero =>
    obtain rfl : left = 0 := by omega
    rw [rangeLoop]
    exact ⟨rfl, .whole trivial rfl⟩
  | succ rounds ih =>
    rcases left with _ | left
    · rw [rangeLoop]
      · exact ⟨rfl, .whole trivial rfl⟩
      · rintro ⟨⟩
    obtain ⟨k, hkk⟩ : ∃ k, min fetchParallelism (left + 1) = k + 1 := by
      refine ⟨min fetchParallelism (left + 1) - 1, ?_⟩
      unfold fetchParallelism
      omega
    have hfits : next.toNat + (k + 1) ≤ 2 ^ 64 := by omega
    have hgo := chunkFrom_next k next
    rw [length_chunkFrom hfits] at hgo
    rw [rangeLoop, hkk, length_chunkFrom hfits]
    refine Prog.ends_lift_bind.2 ((ends_strictChunk _).imp ?_)
    rintro results t ⟨rfl, hr⟩
    have hsays := takeStrict_says hk hfits hr
    generalize takeStrict stream ((chunkFrom (k + 1) next).zip results) = taken at hsays
    cases hsays with
    | lacks he hl hq h => exact ⟨rfl, .lacks he (by omega) hq h⟩
    | failed hf h => exact ⟨rfl, .failed hf h⟩
    | @whole events he hl =>
      cases hn : (chunkFrom (k + 1) next).getLast?.bind checkedSucc with
      | none =>
        rw [hn, Option.elim_none] at hgo
        exact ⟨rfl, .whole he (by omega)⟩
      | some later =>
        rw [hn, Option.elim_some] at hgo
        simp only [check, pure_bind]
        refine Prog.ends_bindE.2 ((@ih (left + 1 - (k + 1)) later (by omega) (by omega)).imp ?_)
        rintro r u ⟨rfl, hrest⟩
        rw [hgo, ← hl] at hrest
        have hall := Strict.append he hrest
        rw [hl, show k + 1 + (left + 1 - (k + 1)) = left + 1 by omega] at hall
        rcases r with e | rest
        · exact ⟨rfl, hall⟩
        · exact ⟨rfl, hall⟩

theorem StreamId.slice_last {after : UInt64} (he : stream.Slice X K s (after.toNat + 1) events) (hm : after < through)
    (hl : events.length ≤ through.toNat - after.toNat) (hne : events ≠ []) :
    events.getLast?.any (·.seq = through) = decide (through.toNat - after.toNat ≤ events.length) := by
  have hlt := UInt64.lt_iff_toNat_lt.1 hm
  cases hlast : events.getLast? with
  | none => exact absurd (List.getLast?_eq_none_iff.1 hlast) hne
  | some e =>
    have hseq := StreamId.slice_getLast? he hlast
    rw [Option.any_some, decide_eq_decide, ← UInt64.toNat_inj]
    have hpos := List.length_pos_iff.2 hne
    omega

/-- More rounds do not change what a walk for the floor says. -/
theorem trimFloorLoop_answer_succ {pfx : Str} {after : Option Str} {floor : Option UInt64} {v : (r : Req) → Resp r}
    {r : Except KeyspaceError (Option UInt64)} (h : (Keyspace.trimFloorLoop K pfx fuel after floor).run.answer v = some r) (hle : fuel ≤ k) :
    (Keyspace.trimFloorLoop K pfx k after floor).run.answer v = some r := by
  induction fuel generalizing k after floor with
  | zero => cases h
  | succ fuel ih =>
    obtain ⟨k, rfl⟩ : ∃ k', k = k' + 1 := ⟨k - 1, by omega⟩
    rw [Keyspace.trimFloorLoop, ExceptT.run_bind, Prog.answer_bind] at h ⊢
    obtain ⟨keys, hkeys, h⟩ := Option.bind_eq_some_iff.1 h
    rw [hkeys, Option.bind_some]
    rcases keys with e | keys
    · exact h
    · dsimp only at h ⊢
      split at h
      · exact h
      · split at h
        · next hlast =>
          rw [if_pos hlast]
          exact h
        · next hfull =>
          rw [if_neg hfull]
          exact ih h (by omega)

/-- A floor that was looked up can be looked up. -/
theorem not_floorless {floor : Option UInt64} (h : (Keyspace.trimFloor K fuel stream.value).run.answer s.answers = some (.ok floor)) :
    ¬ stream.Floorless K s := by
  rintro ⟨fuel', e, he⟩
  unfold Keyspace.trimFloor at h he
  cases hs : Keyspace.trimCertPrefix stream.value with
  | error e' =>
    rw [hs] at h
    cases h
  | ok pfx =>
    rw [hs] at h he
    have h' := trimFloorLoop_answer_succ h (le_max_left fuel fuel')
    have he' := trimFloorLoop_answer_succ he (le_max_right fuel fuel')
    cases h'.symm.trans he'

theorem ends_readRange (ho : ¬ B.omits) (hfuel : (K.keys s).length < fuel) (hlt : after < through) (hlimit : limit ≠ 0) :
    (readRange X K fuel stream after through limit).run.Ends B.exec (fun r t => t = s ∧
      stream.Ranges X K B s limit after.toNat through.toNat (r.map fun page => (page.events, page.reachedEnd))) s := by
  have hlt' := UInt64.lt_iff_toNat_lt.1 hlt
  have hmax := through.toNat_lt
  unfold readRange
  cases hname : validateSegment "stream id" stream.value with
  | error err => exact ⟨rfl, .unnamed hname⟩
  | ok u =>
  simp only [check, pure_bind]
  rw [if_neg hlimit, if_neg (UInt64.not_le.2 hlt)]
  unfold strictGenesis
  rw [bind_assoc]
  refine Prog.ends_bindE.2 ((ends_strictFetch 0 "read_range: genesis").imp ?_)
  rintro r t ⟨rfl, rfl | ⟨hf, e, hbad, rfl⟩⟩
  swap
  · exact ⟨rfl, .failed hf hbad⟩
  cases hgenesis : stream.fetched X K t "read_range: genesis" 0 with
  | error err => exact ⟨rfl, .ungrounded hgenesis⟩
  | ok genesis =>
  rcases genesis with _ | genesis
  · exact ⟨rfl, .notFound hgenesis⟩
  have hk : K.objectKey (stream.logKey 0) = .ok (K.root ++ stream.logKey 0) := by
    unfold StreamId.fetched at hgenesis
    cases hfound : stream.found X K t 0 with
    | error e =>
      rw [hfound] at hgenesis
      cases hgenesis
    | ok found => exact Keyspace.objectKey_of_seen hfound
  have hcert := trimCertPrefix_of_objectKey hk
  simp only [Prog.OnOk, pure_bind]
  unfold strictFloor mapErr
  rw [bind_assoc]
  obtain ⟨res, hres, htells⟩ := Keyspace.answer_trimFloor hcert hfuel
  refine Prog.ends_attempt_bind.2 (((Keyspace.careful_trimFloor ho stream.value).ends hres).imp ?_)
  rintro r u ⟨rfl, rfl | ⟨hf, e, ⟨op, rfl⟩, rfl⟩⟩
  swap
  · exact ⟨rfl, .failed hf ⟨_, rfl⟩⟩
  rcases r with e | floor
  · exact ⟨rfl, .floorless hgenesis hres⟩
  have hg : stream.Grounded X K u := ⟨hname, ⟨genesis, hgenesis⟩, not_floorless hres⟩
  simp only [pure_bind]
  have hsucc : (after + 1).toNat = after.toNat + 1 := by
    refine toNat_succ ?_
    rintro rfl
    exact absurd hlt (UInt64.not_lt.2 (UInt64.le_iff_toNat_le.2 (Nat.le_of_lt_succ hmax)))
  have hismax : Keyspace.IsMax (K.Certified u stream.certPrefix) floor := by
    rw [Keyspace.trimCertPrefix_eq hcert]
    exact htells
  cases hexp : refuseExpired stream (after + 1) floor with
  | error err =>
    unfold refuseExpired at hexp
    cases floor with
    | none => cases hexp
    | some f =>
      dsimp only at hexp
      split at hexp
      · next hbelow =>
        cases hexp
        exact ⟨rfl, .expired hg hismax (by rw [← hsucc]; exact UInt64.lt_iff_toNat_lt.1 hbelow)⟩
      · cases hexp
  | ok _ =>
  have hwithin : stream.Within K u (after.toNat + 1) := by
    intro f hf
    cases floor with
    | none => exact absurd hf (hismax f)
    | some f' =>
      unfold refuseExpired at hexp
      dsimp only at hexp
      split at hexp
      · cases hexp
      · next hnot =>
        have hle := UInt64.le_iff_toNat_le.1 (hismax.2 f hf)
        rw [UInt64.lt_iff_toNat_lt] at hnot
        omega
  simp only [pure_bind]
  refine Prog.ends_bindE.2 ((ends_rangeLoop hk le_rfl (by omega)).imp ?_)
  rw [hsucc]
  rintro r v ⟨rfl, hsays⟩
  cases hsays with
  | lacks he hl hq h => exact ⟨rfl, .lacks hg hwithin he hl hq h⟩
  | failed hf h => exact ⟨rfl, .failed hf h⟩
  | @whole events he hl =>
    refine ⟨rfl, ?_⟩
    have hend := StreamId.slice_last he hlt (by omega) (by rintro rfl; rw [List.length_nil] at hl; omega)
    have hpage := StreamId.Ranges.page (B := B) hg hwithin he hl
    have hsame : decide (through.toNat - after.toNat ≤ limit) = events.getLast?.any (·.seq = through) := by
      rw [hend, decide_eq_decide]
      omega
    rwa [hsame] at hpage

/-! ### Following the pages -/

/-- A page, and what is said behind it. -/
theorem StreamId.Ranges.more {r : Except StreamsError (List Envelope × Bool)} (hw : stream.Within K s (n + 1))
    (he : stream.Slice X K s (n + 1) events) (hlt : n + events.length < m) (h : stream.Ranges X K B s k (n + events.length) m r) :
    stream.Ranges X K B s (events.length + k) n m (r.map fun x => (events ++ x.1, x.2)) := by
  have hjoin : ∀ {rest}, stream.Slice X K s (n + events.length + 1) rest → stream.Slice X K s (n + 1) (events ++ rest) := by
    intro rest hrest
    rw [Nat.add_right_comm] at hrest
    exact StreamId.slice_append.2 ⟨he, hrest⟩
  cases h with
  | @page rest hg hw' hrest hl =>
    have hp := @StreamId.Ranges.page X K B s stream (events.length + k) n m _ hg hw (hjoin hrest) (by rw [List.length_append]; omega)
    have hsame : decide (m - n ≤ events.length + k) = decide (m - (n + events.length) ≤ k) := by
      rw [decide_eq_decide]
      omega
    rwa [hsame] at hp
  | @lacks rest q err hg hw' hrest hl hq h =>
    refine .lacks hg hw (hjoin hrest) ?_ ?_ h
    · rw [List.length_append]
      omega
    · rw [List.length_append]
      omega
  | @expired floor hg h hlt' =>
    have := hw floor h.1
    omega
  | unnamed h => exact .unnamed h
  | notFound h => exact .notFound h
  | ungrounded h => exact .ungrounded h
  | floorless hg h => exact .floorless hg h
  | failed hf h => exact .failed hf h

theorem StreamId.Ranges.error_le {err : StreamsError} (hle : limit ≤ k) (h : stream.Ranges X K B s limit n m (.error err)) :
    stream.Ranges X K B s k n m (.error err) := by
  generalize hr : (.error err : Except StreamsError (List Envelope × Bool)) = r at h ⊢
  cases h with
  | page => cases hr
  | lacks hg hw he hl hq h => exact .lacks hg hw he (by omega) hq h
  | expired hg h hlt => exact .expired hg h hlt
  | unnamed h => exact .unnamed h
  | notFound h => exact .notFound h
  | ungrounded h => exact .ungrounded h
  | floorless hg h => exact .floorless hg h
  | failed hf h => exact .failed hf h

theorem ends_followRange {limits : List ℕ} (ho : ¬ B.omits) (hfuel : (K.keys s).length < fuel) (hlt : after < through) (hne : limits ≠ [])
    (hlimits : ∀ limit ∈ limits, limit ≠ 0) : (followRange X K fuel stream through limits after).run.Ends B.exec
      (fun r t => t = s ∧ stream.Ranges X K B s limits.sum after.toNat through.toNat r) s := by
  induction limits generalizing after with
  | nil => exact absurd rfl hne
  | cons limit limits ih =>
    have hpos := hlimits limit List.mem_cons_self
    rw [followRange, List.sum_cons]
    refine Prog.ends_bindE.2 ((ends_readRange ho hfuel hlt hpos).imp ?_)
    rintro (err | ⟨events, reachedEnd⟩) t ⟨rfl, hr⟩
    · exact ⟨rfl, hr.error_le (Nat.le_add_right ..)⟩
    have hlt' := UInt64.lt_iff_toNat_lt.1 hlt
    change stream.Ranges X K B t limit after.toNat through.toNat (.ok (events, reachedEnd)) at hr
    generalize hx : (events, reachedEnd) = x at hr
    cases hr with
    | @page events' hg hw he hl =>
      obtain ⟨rfl, rfl⟩ := Prod.mk.inj hx
      by_cases hfull : through.toNat - after.toNat ≤ limit
      · -- the page reaches the end
        have hp := @StreamId.Ranges.page X K B t stream (limit + limits.sum) _ through.toNat _ hg hw he (by omega)
        rw [decide_eq_true (show through.toNat - after.toNat ≤ limit + limits.sum by omega)] at hp
        simp only [Prog.OnOk, decide_eq_true hfull, if_true]
        exact ⟨rfl, hp⟩
      · obtain rfl : events.length = limit := by omega
        simp only [Prog.OnOk, decide_eq_false hfull, Bool.false_eq_true, if_false]
        cases hlast : events.getLast? with
        | none =>
          rw [List.getLast?_eq_none_iff.1 hlast] at hpos
          exact absurd rfl hpos
        | some last =>
        have hseq := StreamId.slice_getLast? he hlast
        have hreached : last.seq.toNat = after.toNat + events.length := by
          change last.seq.toNat + 1 = _ at hseq
          omega
        dsimp only
        rcases limits with _ | ⟨limit', limits⟩
        · have hp := StreamId.Ranges.page (B := B) hg hw he hl
          rw [decide_eq_false hfull] at hp
          simp only [followRange, pure_bind, List.append_nil]
          exact ⟨rfl, hp⟩
        · have hlater : last.seq < through := UInt64.lt_iff_toNat_lt.2 (by omega)
          refine Prog.ends_bindE.2 ((ih hlater (by simp) fun l hl => hlimits l (List.mem_cons_of_mem _ hl)).imp ?_)
          rintro r u ⟨rfl, hrest⟩
          rw [hreached] at hrest
          have hall := hrest.more hw he (by omega)
          rcases r with err | rest
          · exact ⟨rfl, hall⟩
          · exact ⟨rfl, hall⟩

/-! ### Windows that are all there -/

theorem StreamId.EventAt.unique {a b : Envelope} (ha : stream.EventAt X K s n a) (hb : stream.EventAt X K s n b) : a = b := by
  obtain ⟨q, hq, bytes, hf, hd⟩ := ha
  obtain ⟨q', hq', bytes', hf', hd'⟩ := hb
  obtain rfl : q = q' := UInt64.toNat_inj.1 (hq.trans hq'.symm)
  cases hf.symm.trans hf'
  exact Option.some.inj (hd.symm.trans hd')

/-- Of two slices from one position the shorter is cut from the longer. -/
theorem StreamId.slice_take {a b : List Envelope} (ha : stream.Slice X K s n a) (hb : stream.Slice X K s n b) (hle : a.length ≤ b.length) :
    a = b.take a.length := by
  induction a generalizing n b with
  | nil => rfl
  | cons e a ih =>
    rcases b with _ | ⟨e', b⟩
    · cases hle
    · rw [List.length_cons, List.take_succ_cons, ha.1.unique hb.1, ← ih ha.2 hb.2 (Nat.le_of_succ_le_succ hle)]

theorem StreamId.Lacks.not_eventAt {err : StreamsError} (h : stream.Lacks X K s q err) (e : Envelope) :
    ¬ stream.EventAt X K s q.toNat e := by
  rintro ⟨q', hq, bytes, hf, hd⟩
  obtain rfl : q' = q := UInt64.toNat_inj.1 hq
  cases h with
  | missing h => exact h (present_of_found hf)
  | damaged hf' hd' =>
    cases hf.symm.trans hf'
    rw [hd] at hd'
    cases hd'
  | unreadable h =>
    rw [hf] at h
    cases h

theorem StreamId.Lacks.unique {err err' : StreamsError} (hk : K.objectKey (stream.logKey p) = .ok path) (h : stream.Lacks X K s q err)
    (h' : stream.Lacks X K s q err') : err = err' := by
  have hgone : ¬ stream.Present K s q → stream.found X K s q = .ok none := (found_eq_none hk).2
  cases h with
  | missing h =>
    cases h' with
    | missing => rfl
    | damaged hb => exact absurd (present_of_found hb) h
    | unreadable he => cases (hgone h).symm.trans he
  | damaged hb hd =>
    cases h' with
    | missing h' => exact absurd (present_of_found hb) h'
    | damaged => rfl
    | unreadable he => cases hb.symm.trans he
  | unreadable he =>
    cases h' with
    | missing h' => cases (hgone h').symm.trans he
    | damaged hb => cases hb.symm.trans he
    | unreadable he' =>
      cases he.symm.trans he'
      rfl

/-- A slice has an event at each of its positions. -/
theorem StreamId.slice_at {i : ℕ} (h : stream.Slice X K s n events) (hi : i < events.length) : ∃ e, stream.EventAt X K s (n + i) e := by
  induction events generalizing n i with
  | nil => cases hi
  | cons e events ih =>
    rcases i with _ | i
    · exact ⟨e, h.1⟩
    · obtain ⟨e', he'⟩ := ih h.2 (Nat.lt_of_succ_lt_succ hi)
      exact ⟨e', by rwa [← Nat.add_assoc, Nat.add_right_comm]⟩

theorem StreamId.Grounded.key (hg : stream.Grounded X K s) : K.objectKey (stream.logKey 0) = .ok (K.root ++ stream.logKey 0) := by
  obtain ⟨-, ⟨genesis, hgenesis⟩, -⟩ := hg
  unfold StreamId.fetched at hgenesis
  cases hfound : stream.found X K s 0 with
  | error e =>
    rw [hfound] at hgenesis
    cases hgenesis
  | ok found => exact Keyspace.objectKey_of_seen hfound

section
variable {r : Except StreamsError (List Envelope × Bool)} (hf : ¬ B.faults) (h : stream.Ranges X K B s limit n m r)
include hf h

/-- Where every request is answered, a stream that is there is read or said to be expired. -/
theorem StreamId.Grounded.ranges (hg : stream.Grounded X K s) :
    (∃ events, stream.Within K s (n + 1) ∧ stream.Slice X K s (n + 1) events ∧ events.length = min (m - n) limit ∧
      r = .ok (events, decide (m - n ≤ limit))) ∨
    (∃ (events : List Envelope) (q : UInt64) (err : StreamsError), stream.Within K s (n + 1) ∧ stream.Slice X K s (n + 1) events ∧
      events.length < min (m - n) limit ∧ q.toNat = n + 1 + events.length ∧ stream.Lacks X K s q err ∧ r = .error err) ∨
    ∃ floor, Keyspace.IsMax (K.Certified s stream.certPrefix) (some floor) ∧ n + 1 < floor.toNat ∧
      r = .error (.offsetExpired stream floor) := by
  obtain ⟨hname, ⟨genesis, hgenesis⟩, hfloor⟩ := hg
  cases h with
  | page hg hw he hl => exact .inl ⟨_, hw, he, hl, rfl⟩
  | lacks hg hw he hl hq h => exact .inr (.inl ⟨_, _, _, hw, he, hl, hq, h, rfl⟩)
  | expired hg h hlt => exact .inr (.inr ⟨_, h, hlt, rfl⟩)
  | unnamed h => cases hname.symm.trans h
  | notFound h => cases hgenesis.symm.trans h
  | ungrounded h => cases hgenesis.symm.trans h
  | floorless _ h => exact absurd ⟨_, _, h⟩ hfloor
  | failed h => exact absurd h hf

/-- A window that is all there is returned up to the limit. -/
theorem StreamId.WholeWindow.ranges {whole : List Envelope} (hW : stream.WholeWindow X K s n m whole) :
    r = .ok (whole.take limit, decide (m - n ≤ limit)) := by
  obtain ⟨hg, hwithin, hslice, hlen⟩ := hW
  rcases hg.ranges hf h with ⟨events, -, he, hl, rfl⟩ | ⟨events, q, err, -, he, hl, hq, hlack, rfl⟩ | ⟨floor, hmax, hlt, rfl⟩
  · rw [StreamId.slice_take he hslice (by omega), hl, ← hlen,
      List.take_eq_take_iff.2 (show min (min whole.length limit) whole.length = min limit whole.length by omega)]
  · obtain ⟨e, hat⟩ := StreamId.slice_at hslice (show events.length < whole.length by omega)
    exact absurd (hq ▸ hat) (hlack.not_eventAt e)
  · have := hwithin floor hmax.1
    omega

/-- A window with something wrong within the limit is refused for the lowest such position. -/
theorem StreamId.Grounded.lacking {err : StreamsError} (hg : stream.Grounded X K s) (hwithin : stream.Within K s (n + 1))
    (hslice : stream.Slice X K s (n + 1) events) (hl : events.length < min (m - n) limit) (hq : q.toNat = n + 1 + events.length)
    (hlack : stream.Lacks X K s q err) : r = .error err := by
  rcases hg.ranges hf h with ⟨events', -, he, hl', rfl⟩ | ⟨events', q', err', -, he, hl', hq', hlack', rfl⟩ | ⟨floor, hmax, hlt, rfl⟩
  · obtain ⟨e, hat⟩ := StreamId.slice_at he (show events.length < events'.length by omega)
    exact absurd (hq ▸ hat) (hlack.not_eventAt e)
  · rcases lt_trichotomy events.length events'.length with hlt | heq | hlt
    · obtain ⟨e, hat⟩ := StreamId.slice_at he hlt
      exact absurd (hq ▸ hat) (hlack.not_eventAt e)
    · obtain rfl : q = q' := UInt64.toNat_inj.1 (by omega)
      rw [hlack.unique hg.key hlack']
    · obtain ⟨e, hat⟩ := StreamId.slice_at hslice hlt
      exact absurd (hq' ▸ hat) (hlack'.not_eventAt e)
  · have := hwithin floor hmax.1
    omega

end

/-- Strict reads are exact, page by page and window by window. -/
theorem strict_windows (ho : ¬ B.omits) (hfuel : (K.keys s).length < fuel) (hlt : after < through) :
    (∀ limit, limit ≠ 0 → (readRange X K fuel stream after through limit).run.Ends B.exec (fun r t => t = s ∧
      stream.Ranges X K B s limit after.toNat through.toNat (r.map fun page => (page.events, page.reachedEnd))) s) ∧
    (∀ limits, limits ≠ [] → (∀ limit ∈ limits, limit ≠ 0) → (followRange X K fuel stream through limits after).run.Ends B.exec
      (fun r t => t = s ∧ stream.Ranges X K B s limits.sum after.toNat through.toNat r) s) ∧
    (¬ B.faults → ∀ whole, stream.WholeWindow X K s after.toNat through.toNat whole → ∀ limit r,
      stream.Ranges X K B s limit after.toNat through.toNat r →
        r = .ok (whole.take limit, decide (through.toNat - after.toNat ≤ limit))) :=
  ⟨fun _ hlimit => ends_readRange ho hfuel hlt hlimit, fun _ hne hlimits => ends_followRange ho hfuel hlt hne hlimits,
    fun hf _ hW _ _ h => hW.ranges hf h⟩

end

theorem letterPages_keys : Keyspace.letterSpace.keys letterPages =
    [letterStream.logKey 0, letterStream.certPrefix ++ seqComponent 2, letterStream.logKey 2, letterStream.logKey 3, letterStream.logKey 4] := by
  decide +kernel

/-- What following two pages of it answers, and the numbers of the events. -/
theorem letterPages_followed : ((followRange Serde.crates Keyspace.letterSpace 9 letterStream 4 [2, 1] 1).run.eval (Store.serve contentTag)
    letterPages).1.map (fun r => r.toOption.map fun window => (window.1.map (·.seq), window.2)) = some (some ([2, 3, 4], true)) := by
  decide +kernel

/-- The window behind the floor is read in one page and a bit, and is the same page by page. -/
theorem strict_windows_letter : ∃ whole, whole.map (·.seq) = [2, 3, 4] ∧
    letterStream.WholeWindow Serde.crates Keyspace.letterSpace letterPages 1 4 whole ∧
    (readRange Serde.crates Keyspace.letterSpace 9 letterStream 1 4 2).run.Ends Backend.honest.exec
      (fun r t => t = letterPages ∧ r = .ok ⟨whole.take 2, false⟩) letterPages ∧
    (followRange Serde.crates Keyspace.letterSpace 9 letterStream 4 [2, 1] 1).run.Ends Backend.honest.exec
      (fun r t => t = letterPages ∧ r = .ok (whole, true)) letterPages := by
  have hfuel : (Keyspace.letterSpace.keys letterPages).length < 9 := by
    rw [letterPages_keys]
    decide
  obtain ⟨hpage, hfollow, hexact⟩ := @strict_windows Serde.crates Keyspace.letterSpace .honest letterPages letterStream 1 4 9 id hfuel (by decide)
  have hfollowed := hfollow [2, 1] (by simp) (by simp)
  obtain ⟨r, hr, hseqs⟩ := Option.map_eq_some_iff.1 letterPages_followed
  rcases r with e | ⟨whole, ended⟩
  · cases hseqs
  obtain ⟨hseqs, rfl⟩ := Prod.ext_iff.1 (Option.some.inj hseqs)
  have hruns := runs_of_eval_fst hr
  obtain ⟨-, hwindow⟩ := hfollowed.runs hruns
  have hW : letterStream.WholeWindow Serde.crates Keyspace.letterSpace letterPages 1 4 whole := by
    generalize hok : (.ok (whole, true) : Except StreamsError (List Envelope × Bool)) = answer at hwindow
    cases hwindow with
    | page hg hw he hl =>
      cases hok
      exact ⟨hg, hw, he, hl⟩
    | _ => cases hok
  refine ⟨whole, hseqs, hW, (hpage 2 (by decide)).imp ?_, hfollowed.imp ?_⟩
  · rintro r t ⟨rfl, hr⟩
    have hr := hexact id whole hW 2 _ hr
    refine ⟨rfl, ?_⟩
    rcases r with e | ⟨events, ended⟩
    · cases hr
    · obtain ⟨rfl, rfl⟩ := Prod.ext_iff.1 (Except.ok.inj hr)
      rfl
  · rintro r t ⟨rfl, hr⟩
    have hlen : whole.length = 3 := hW.length
    refine ⟨rfl, (hexact id whole hW 3 _ hr).trans ?_⟩
    rw [List.take_of_length_le hlen.le]
    rfl

end YeetzS3.Streams
