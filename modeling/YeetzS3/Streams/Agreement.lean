import YeetzS3.Streams.Migrated
import YeetzS3.Streams.Windows

/-!
# Live replay and strict reads

What `read` answers about a log that nobody else writes, the strict reads of the same log say too (`replay_agrees`): a page is the
window that ends at its last event, a gap is the lowest position a strict read lacks, an expired offset is expired. Reading on
behind the last event of each page goes over every event once (`runs_followRead`).
-/

namespace YeetzS3.Streams

open Conc
open Keyspace (AtomicKeyspace Unserved ValidPath byteLen validSegment)

/-- Read on behind the last event of each page, with these limits: the events, and the answer that ended it. -/
def followRead (X : Crates) (K : AtomicKeyspace) (fuel : ℕ) (ids : ℕ → Bytes) (stream : StreamId) :
    List ℕ → UInt64 → Quiet (List Envelope × Option Replay)
  | [], _ => pure ([], none)
  | limit :: limits, afterSeq => do
    match ← read X K fuel ids stream afterSeq limit with
    | .page events complete =>
      if complete then pure (events, some (.page events complete))
      else match events.getLast? with
        | none => pure (events, some (.page events complete))
        | some last => do
          let rest ← followRead X K fuel ids stream limits last.seq
          pure (events ++ rest.1, rest.2)
    | replay => pure ([], some replay)

section
variable (X : Crates) (K : AtomicKeyspace) (s : Store) (stream : StreamId)

/-- The answer of every strict read of the window behind `after` through `through`, whoever asks when every request is answered. -/
def StreamId.Strictly (after through : UInt64) (limit : ℕ) (answer : Except StreamsError RangePage) : Prop :=
  ∀ B : Backend, ¬ B.faults → ¬ B.omits → ∀ fuel, (K.keys s).length < fuel → ∀ r t,
    (readRange X K fuel stream after through limit).run.Runs B.exec s r t → r = answer

/-- Every strict read behind `after` that reaches `q` fails with `err`. -/
def StreamId.StrictlyLacks (after q : UInt64) (err : StreamsError) : Prop :=
  ∀ through limit, q ≤ through → q.toNat - after.toNat ≤ limit → stream.Strictly X K s after through limit (.error err)

/-- What strict reads say where a read of at most `limit` events behind `after` gives this answer. -/
def StreamId.Agrees (limit : ℕ) (after : UInt64) : Replay → Prop
  | .page events complete => ∃ last, events.getLast? = some last ∧ events.length ≤ limit ∧
      (∀ k, events.length ≤ k → stream.Strictly X K s after last.seq k (.ok ⟨events, true⟩)) ∧
      (complete = true ∨ events.length < limit → stream.Last K s last.seq.toNat)
  | .empty => stream.Last K s after.toNat ∧ (after ≠ maxSeq → stream.StrictlyLacks X K s after (after + 1) (.eventMissing stream (after + 1)))
  | .corrupt missing => ∃ q, missing.head? = some q ∧
      ((q = 0 ∧ ∀ through k, after < through → k ≠ 0 → stream.Strictly X K s after through k (.error (.corrupt stream [0]))) ∨
      (after < q ∧ missing = [q] ∧ stream.StrictlyLacks X K s after q (.corrupt stream [q])) ∨
      (after < q ∧ stream.StrictlyLacks X K s after q (.eventMissing stream q) ∧
        ∃ next, stream.Next K s q.toNat next ∧ ∀ p, p ∈ missing ↔ q ≤ p ∧ p < next))
  | .offsetExpired floor => ∀ through k, after < through → k ≠ 0 → stream.Strictly X K s after through k (.error (.offsetExpired stream floor))
  | .notFound missing => missing = stream ∧
      ∀ through k, after < through → k ≠ 0 → stream.Strictly X K s after through k (.error (.streamNotFound stream))
  | .unavailable _ | .backendUnqualified _ _ => True

/-- What a reader that read on behind position `n` has seen: the events one by one, and none is behind them if it was told so. -/
def StreamId.Visits (B : Backend) (n : ℕ) (seen : List Envelope × Option Replay) : Prop :=
  stream.Slice X K s (n + 1) seen.1 ∧ match seen.2 with
    | none => True
    | some (.page _ _) | some .empty => stream.Last K s (n + seen.1.length)
    | some replay => ∃ u limit, stream.Hinted K s u ∧ stream.Says X K B u limit (n + seen.1.length) replay

end

variable {X : Crates} {K : AtomicKeyspace} {B : Backend} {s t u : Store} {stream : StreamId} {after p q : UInt64} {limit n fuel : ℕ}
  {ids : ℕ → Bytes} {path : Str} {replay : Replay} {events : List Envelope} {seen : List Envelope × Option Replay}

/-- A stream whose events have keys has a name. -/
theorem validateSegment_of_objectKey (hk : K.objectKey (stream.logKey p) = .ok path) :
    validateSegment "stream id" stream.value = .ok () := by
  obtain ⟨hlen, hvalid⟩ := Keyspace.validate_ok.1 (Keyspace.validate_of_objectKey "key" hk)
  have hkey : stream.logKey p = stream.value ++ '/' :: ("log/".toList ++ seqComponent p) := by
    unfold StreamId.logKey StreamId.logPrefix
    rw [show "/log/".toList = '/' :: "log/".toList from rfl, List.append_assoc, List.cons_append]
  rw [hkey] at hlen hvalid
  rw [Keyspace.byteLen_append] at hlen
  have hname : Keyspace.validateIdentifier "stream id" stream.value = .ok () :=
    Keyspace.validate_ok.2 ⟨by omega, (Keyspace.validPath_append.1 hvalid).1⟩
  unfold Keyspace.validateIdentifier at hname
  unfold validateSegment
  split at hname
  · cases hname
  next hplain =>
  split at hname
  · next hsegments => rw [if_neg hplain, if_pos hsegments]
  · cases hname

/-- What a read found before it walked. -/
theorem runs_read_grounded (ho : ¬ B.omits) (hfuel : (K.keys s).length < fuel) (hlimit : limit ≠ 0)
    (h : (read X K fuel ids stream after limit).Runs B.exec s replay t) :
    stream.Grounded X K s ∨ (after = maxSeq ∧ replay = .empty) ∨ (∃ operation, replay = .unavailable operation) ∨
      (stream.found X K s 0 = .ok none ∧ replay = .notFound stream) ∨
      (∃ bytes, stream.found X K s 0 = .ok (some bytes) ∧ Envelope.decodeAndVerify X stream 0 bytes = none ∧ replay = .corrupt [0]) := by
  unfold read at h
  rw [if_neg hlimit] at h
  obtain ⟨r, u, hget, hr⟩ := Prog.runs_bind.1 h
  clear h
  obtain ⟨rfl, hfound⟩ := Keyspace.runs_get hget
  rcases r with e | found
  · exact .inr (.inr (.inl ⟨_, (Prog.runs_ret.1 hr).1⟩))
  obtain hfound : stream.found X K u 0 = .ok found := by
    rcases hfound with hfound | ⟨-, e, -, hfound⟩
    · exact hfound.symm
    · cases hfound
  rcases found with _ | bytes
  · exact .inr (.inr (.inr (.inl ⟨hfound, (Prog.runs_ret.1 hr).1⟩)))
  dsimp only at hr
  cases hd : Envelope.decodeAndVerify X stream 0 bytes with
  | none =>
    rw [hd] at hr
    exact .inr (.inr (.inr (.inr ⟨bytes, hfound, hd, (Prog.runs_ret.1 hr).1⟩)))
  | some genesis =>
  rw [hd] at hr
  dsimp only at hr
  split at hr
  · next hmax => exact .inr (.inl ⟨hmax, (Prog.runs_ret.1 hr).1⟩)
  have hk : K.objectKey (stream.logKey 0) = .ok (K.root ++ stream.logKey 0) := Keyspace.objectKey_of_seen hfound
  unfold readFrom at hr
  obtain ⟨r, v, hfloor, hr⟩ := Prog.runs_bind.1 hr
  obtain ⟨rfl, res, hanswer, -, hres⟩ := Keyspace.answered_trimFloor ho (trimCertPrefix_of_objectKey hk) hfuel hfloor
  rcases r with e | floor
  · exact .inr (.inr (.inl ⟨_, (Prog.runs_ret.1 hr).1⟩))
  obtain rfl : res = .ok floor := by
    rcases hres with hres | ⟨-, e, -, hres⟩
    · exact hres.symm
    · cases hres
  refine .inl ⟨validateSegment_of_objectKey hk, ⟨genesis, ?_⟩, not_floorless hanswer⟩
  unfold StreamId.fetched verify
  rw [hfound]
  dsimp only
  rw [hd]
  rfl

/-! ### Strict answers -/

section
variable {through : UInt64} {k : ℕ} {err : StreamsError}

/-- What the ranges of a window say, its strict reads say. -/
theorem strictly_of_ranges {answer : Except StreamsError RangePage} (hlt : after < through) (hk : k ≠ 0)
    (h : ∀ (B : Backend) (r : Except StreamsError (List Envelope × Bool)), ¬ B.faults →
      stream.Ranges X K B s k after.toNat through.toNat r → r = answer.map fun page => (page.events, page.reachedEnd)) :
    stream.Strictly X K s after through k answer := by
  intro B hf ho fuel hfuel r t hr
  obtain ⟨-, hsays⟩ := (ends_readRange ho hfuel hlt hk).runs hr
  have hsame := h B _ hf hsays
  rcases r with e | ⟨events, ended⟩
  · rcases answer with e' | ⟨events', ended'⟩
    · exact congrArg Except.error (Except.error.inj hsame)
    · cases hsame
  · rcases answer with e' | ⟨events', ended'⟩
    · cases hsame
    · cases hsame
      rfl

theorem StreamId.Grounded.strictlyLacks (hg : stream.Grounded X K s) (hw : stream.Within K s (after.toNat + 1))
    (he : stream.Slice X K s (after.toNat + 1) events) (hq : q.toNat = after.toNat + 1 + events.length) (hlack : stream.Lacks X K s q err) :
    stream.StrictlyLacks X K s after q err := by
  intro through k hthrough hk
  have hle := UInt64.le_iff_toNat_le.1 hthrough
  refine strictly_of_ranges (UInt64.lt_iff_toNat_lt.2 (by omega)) (by omega) fun B r hf hr => ?_
  rw [hg.lacking hf hr hw he (by omega) hq hlack]
  rfl

end

theorem mem_seqRange {a b : UInt64} : p ∈ seqRange a b ↔ a ≤ p ∧ p < b := by
  have ha := a.toNat_lt
  have hb := b.toNat_lt
  have hp := p.toNat_lt
  unfold seqRange
  rw [List.mem_map]
  constructor
  · rintro ⟨i, hi, rfl⟩
    rw [List.mem_range] at hi
    have hval : (a + UInt64.ofNat i).toNat = a.toNat + i := by
      rw [UInt64.toNat_add, UInt64.toNat_ofNat_of_lt' (show i < 2 ^ 64 by omega), Nat.mod_eq_of_lt (by omega)]
    rw [UInt64.le_iff_toNat_le, UInt64.lt_iff_toNat_lt, hval]
    omega
  · rintro ⟨h₁, h₂⟩
    rw [UInt64.le_iff_toNat_le] at h₁
    rw [UInt64.lt_iff_toNat_lt] at h₂
    refine ⟨p.toNat - a.toNat, List.mem_range.2 (by omega), ?_⟩
    rw [← UInt64.toNat_inj, UInt64.toNat_add, UInt64.toNat_ofNat_of_lt' (show p.toNat - a.toNat < 2 ^ 64 by omega),
      Nat.mod_eq_of_lt (by omega)]
    omega

theorem head?_seqRange {a b : UInt64} (h : a < b) : (seqRange a b).head? = some a := by
  obtain ⟨n, hn⟩ : ∃ n, b.toNat - a.toNat = n + 1 := ⟨b.toNat - a.toNat - 1, by
    have := UInt64.lt_iff_toNat_lt.1 h
    omega⟩
  unfold seqRange
  rw [hn, List.range_succ_eq_map, List.map_cons, List.head?_cons]
  exact congrArg some (UInt64.add_zero a)

/-- A genesis that is not there, or damaged, is what strict reads say. -/
theorem strictly_ungrounded {through : UInt64} {k : ℕ} {err : StreamsError} (hlt : after < through) (hk : k ≠ 0)
    (hname : validateSegment "stream id" stream.value = .ok ())
    (h : stream.fetched X K s "read_range: genesis" 0 = .error err ∨
      stream.fetched X K s "read_range: genesis" 0 = .ok none ∧ err = .streamNotFound stream) :
    stream.Strictly X K s after through k (.error err) := by
  have hnone : ∀ genesis, stream.fetched X K s "read_range: genesis" 0 ≠ .ok (some genesis) := by
    intro genesis hg
    rcases h with h | ⟨h, -⟩ <;> cases hg.symm.trans h
  have hno : ¬ stream.Grounded X K s := fun hg => hg.genesis.elim hnone
  refine strictly_of_ranges hlt hk fun B r hf hr => ?_
  cases hr with
  | page hg => exact absurd hg hno
  | lacks hg => exact absurd hg hno
  | expired hg => exact absurd hg hno
  | unnamed he => cases hname.symm.trans he
  | notFound hg =>
    rcases h with h | ⟨-, rfl⟩
    · cases hg.symm.trans h
    · rfl
  | ungrounded hg =>
    rcases h with h | ⟨h, -⟩
    · cases hg.symm.trans h
      rfl
    · cases hg.symm.trans h
  | floorless hg => exact absurd hg (hnone _)
  | failed h => exact absurd h hf

/-- What a read says of a log, its strict reads say. -/
theorem agrees_of_says (hgrounds : stream.Grounded X K s ∨ (after = maxSeq ∧ replay = .empty) ∨ (∃ operation, replay = .unavailable operation) ∨
      (stream.found X K s 0 = .ok none ∧ replay = .notFound stream) ∨
      (∃ bytes, stream.found X K s 0 = .ok (some bytes) ∧ Envelope.decodeAndVerify X stream 0 bytes = none ∧ replay = .corrupt [0]))
    (h : stream.Says X K B s limit after.toNat replay) : stream.Agrees X K s limit after replay := by
  cases h with
  | @page events complete hw he hne hl hc =>
    have hg : stream.Grounded X K s := by
      rcases hgrounds with hg | ⟨-, h⟩ | ⟨_, h⟩ | ⟨-, h⟩ | ⟨_, -, -, h⟩
      · exact hg
      all_goals cases h
    obtain ⟨last, hlast⟩ : ∃ last, events.getLast? = some last := ⟨_, List.getLast?_eq_some_getLast hne⟩
    have hseq : last.seq.toNat = after.toNat + events.length := by
      have := StreamId.slice_getLast? he hlast
      omega
    have hpos := List.length_pos_iff.2 hne
    refine ⟨last, hlast, hl, fun k hk => ?_, fun h => hseq ▸ hc h⟩
    refine strictly_of_ranges (UInt64.lt_iff_toNat_lt.2 (by omega)) (by omega) fun B r hf hr => ?_
    have hW : stream.WholeWindow X K s after.toNat last.seq.toNat events := ⟨hg, hw, he, by omega⟩
    rw [hW.ranges hf hr, List.take_of_length_le hk, decide_eq_true (by omega)]
    rfl
  | empty hw hlast =>
    refine ⟨hlast, fun hmax => ?_⟩
    have hsucc := toNat_succ hmax
    have hg : stream.Grounded X K s := by
      rcases hgrounds with hg | ⟨h, -⟩ | ⟨_, h⟩ | ⟨-, h⟩ | ⟨_, -, -, h⟩
      · exact hg
      · exact absurd h hmax
      all_goals cases h
    have hlt := (after + 1).toNat_lt
    have hnone : stream.Slice X K s (after.toNat + 1) [] := trivial
    exact hg.strictlyLacks (hw (by omega)) hnone hsucc (.missing (hlast _ (by omega)))
  | @hole events q next hw he hl hq hgone hnext =>
    have hlt : q < next := UInt64.lt_iff_toNat_lt.2 hnext.behind
    have hg : stream.Grounded X K s := by
      rcases hgrounds with hg | ⟨-, h⟩ | ⟨_, h⟩ | ⟨-, h⟩ | ⟨_, -, -, h⟩
      · exact hg
      · cases h
      · cases h
      · cases h
      · have hhead := congrArg List.head? (Replay.corrupt.inj h)
        rw [head?_seqRange hlt] at hhead
        obtain rfl : q = 0 := Option.some.inj hhead
        rw [UInt64.toNat_zero] at hq
        omega
    refine ⟨q, head?_seqRange hlt, .inr (.inr ⟨UInt64.lt_iff_toNat_lt.2 (by omega), ?_, next, hnext, fun p => mem_seqRange⟩)⟩
    exact hg.strictlyLacks hw he hq (.missing hgone)
  | @damaged events q bytes hw he hl hq hb hd =>
    have hg : stream.Grounded X K s := by
      rcases hgrounds with hg | ⟨-, h⟩ | ⟨_, h⟩ | ⟨-, h⟩ | ⟨_, -, -, h⟩
      · exact hg
      · cases h
      · cases h
      · cases h
      · cases h
        rw [UInt64.toNat_zero] at hq
        omega
    refine ⟨q, rfl, .inr (.inl ⟨UInt64.lt_iff_toNat_lt.2 (by omega), rfl, ?_⟩)⟩
    exact hg.strictlyLacks hw he hq (.damaged hb hd)
  | @ungrounded bytes hb hd =>
    have hk : K.objectKey (stream.logKey 0) = .ok (K.root ++ stream.logKey 0) := Keyspace.objectKey_of_seen hb
    refine ⟨0, rfl, .inl ⟨rfl, fun through k hlt hk0 => ?_⟩⟩
    refine strictly_ungrounded hlt hk0 (validateSegment_of_objectKey hk) (.inl ?_)
    unfold StreamId.fetched verify
    rw [hb]
    dsimp only
    rw [hd]
    rfl
  | notFound hb =>
    have hk : K.objectKey (stream.logKey 0) = .ok (K.root ++ stream.logKey 0) := Keyspace.objectKey_of_seen hb
    refine ⟨rfl, fun through k hlt hk0 => strictly_ungrounded hlt hk0 (validateSegment_of_objectKey hk) (.inr ⟨?_, rfl⟩)⟩
    unfold StreamId.fetched
    rw [hb]
  | @expired floor hmax hbelow =>
    have hg : stream.Grounded X K s := by
      rcases hgrounds with hg | ⟨-, h⟩ | ⟨_, h⟩ | ⟨-, h⟩ | ⟨_, -, -, h⟩
      · exact hg
      all_goals cases h
    intro through k hlt hk0
    refine strictly_of_ranges hlt hk0 fun B r hf hr => ?_
    rcases hg.ranges hf hr with ⟨_, hw, -⟩ | ⟨_, _, _, hw, -⟩ | ⟨floor', hmax', -, rfl⟩
    · have := hw floor hmax.1
      omega
    · have := hw floor hmax.1
      omega
    · obtain rfl := Option.some.inj (hmax'.unique hmax)
      rfl
  | failed => trivial
  | unopened => trivial
  | unread => trivial
  | floorless => trivial
  | unqualified => trivial

/-! ### Reading on -/

/-- A read leaves the log as it was, but for its hint. -/
theorem runs_read_hinted (h : (read X K fuel ids stream after limit).Runs B.exec s replay t) : stream.Hinted K s t :=
  (h.keep (every_read reads_publishing (fun sc hsc _ hw => .inr ⟨sc, hsc, hw⟩) after limit) hinted_keep (AtomicKeyspace.Beside.refl s)).1

/-- The events of a page, and what is seen behind them. -/
theorem StreamId.Visits.more (he : stream.Slice X K s (n + 1) events) (h : stream.Visits X K s B (n + events.length) seen) :
    stream.Visits X K s B n (events ++ seen.1, seen.2) := by
  obtain ⟨hs, hf⟩ := h
  refine ⟨?_, ?_⟩
  · rw [StreamId.slice_append]
    refine ⟨he, ?_⟩
    rwa [Nat.add_right_comm]
  · rwa [List.length_append, ← Nat.add_assoc]

/-- Reading on goes over every event once. -/
theorem runs_followRead {limits : List ℕ} {seen : List Envelope × Option Replay} (ho : ¬ B.omits) (ha : stream.Alone K s)
    (hk : K.objectKey (stream.logKey p) = .ok path) (hfuel : (K.keys s).length + 1 < fuel) (hlimits : ∀ limit ∈ limits, limit ≠ 0)
    (hu : stream.Hinted K s u) (h : (followRead X K fuel ids stream limits after).Runs B.exec u seen t) :
    stream.Hinted K s t ∧ stream.Visits X K s B after.toNat seen := by
  induction limits generalizing after u seen with
  | nil =>
    obtain ⟨rfl, rfl⟩ := Prog.runs_ret.1 h
    exact ⟨hu, trivial, trivial⟩
  | cons limit limits ih =>
    rw [followRead] at h
    obtain ⟨replay, v, hread, hr⟩ := Prog.runs_bind.1 h
    clear h
    have hlen := hu.length_keys
    have hsays := runs_read ho (hinted_alone hu hk ha) (by omega) hread
    have hv := hu.trans (runs_read_hinted hread)
    have hother : (∀ events complete, replay ≠ .page events complete) → replay ≠ .empty → stream.Visits X K s B after.toNat ([], some replay) := by
      intro hpage hempty
      refine ⟨trivial, ?_⟩
      cases replay with
      | page events complete => exact absurd rfl (hpage events complete)
      | empty => exact absurd rfl hempty
      | _ => exact ⟨u, limit, hu, hsays⟩
    cases hsays with
    | @page events complete hw he hne hl hc =>
      have he' := (hinted_slice hu).1 he
      obtain ⟨last, hlast⟩ : ∃ last, events.getLast? = some last := ⟨_, List.getLast?_eq_some_getLast hne⟩
      have hseq : last.seq.toNat = after.toNat + events.length := by
        have := StreamId.slice_getLast? he hlast
        omega
      dsimp only at hr
      cases complete with
      | true =>
        obtain ⟨rfl, rfl⟩ := Prog.runs_ret.1 hr
        exact ⟨hv, he', (hinted_last hu).1 (hc (.inl rfl))⟩
      | false =>
        rw [if_neg Bool.false_ne_true, hlast] at hr
        obtain ⟨rest, w, hrest, hr⟩ := Prog.runs_bind.1 hr
        obtain ⟨rfl, rfl⟩ := Prog.runs_ret.1 hr
        obtain ⟨hw, hvisits⟩ := ih (fun l hl => hlimits l (List.mem_cons_of_mem _ hl)) hv hrest
        rw [hseq] at hvisits
        exact ⟨hw, hvisits.more he'⟩
    | empty hw hlast =>
      obtain ⟨rfl, rfl⟩ := Prog.runs_ret.1 hr
      exact ⟨hv, trivial, (hinted_last hu).1 hlast⟩
    | _ =>
      obtain ⟨rfl, rfl⟩ := Prog.runs_ret.1 hr
      exact ⟨hv, hother (fun _ _ he => by cases he) (by rintro ⟨⟩)⟩

/-- Live replay agrees with strict reads, one answer at a time and over a whole log. -/
theorem replay_agrees (ho : ¬ B.omits) (ha : stream.Alone K s) (hk : K.objectKey (stream.logKey p) = .ok path)
    (hfuel : (K.keys s).length + 1 < fuel) (ids : ℕ → Bytes) (after : UInt64) :
    (∀ limit replay t, limit ≠ 0 → (read X K fuel ids stream after limit).Runs B.exec s replay t →
      stream.Hinted K s t ∧ stream.Says X K B s limit after.toNat replay ∧ stream.Agrees X K s limit after replay) ∧
    ∀ limits seen t, (∀ limit ∈ limits, limit ≠ 0) → (followRead X K fuel ids stream limits after).Runs B.exec s seen t →
      stream.Hinted K s t ∧ stream.Visits X K s B after.toNat seen := by
  refine ⟨fun limit replay t hlimit h => ?_, fun limits seen t hlimits h =>
    runs_followRead ho ha hk hfuel hlimits (AtomicKeyspace.Beside.refl s) h⟩
  have hsays := runs_read ho ha (Nat.lt_of_succ_lt hfuel) h
  exact ⟨runs_read_hinted h, hsays, agrees_of_says (runs_read_grounded ho (Nat.lt_of_succ_lt hfuel) hlimit h) hsays⟩

theorem letterPages_alone : letterStream.Alone Keyspace.letterSpace letterPages := by
  have hevents : ∀ key ∈ Keyspace.letterSpace.keys letterPages, letterStream.logPrefix <+: key → (letterStream.seqOf key).isSome := by
    rw [letterPages_keys]
    decide +kernel
  have hcertificates : ∀ key ∈ Keyspace.letterSpace.keys letterPages, Keyspace.floorStart letterStream.value <+: key →
      key = letterStream.certPrefix ++ seqComponent 2 := by
    rw [letterPages_keys]
    decide +kernel
  refine ⟨fun key hkey hpre => ?_, fun key hkey hpre => ⟨2, hcertificates key hkey hpre⟩⟩
  obtain ⟨q, hq⟩ := Option.isSome_iff_exists.1 (hevents key hkey hpre)
  exact ⟨q, seqOf_eq_some.1 hq⟩

/-- What a live read of two events behind the floor answers, by the numbers of the events, and what reading on answers. -/
theorem letterPages_read :
    ((read Serde.crates Keyspace.letterSpace 9 (fun _ => []) letterStream 1 2).eval (Store.serve contentTag) letterPages).1.map
      (fun replay => match replay with
        | .page events complete => some (events.map (·.seq), complete)
        | _ => none) = some (some ([2, 3], false)) ∧
    ((followRead Serde.crates Keyspace.letterSpace 9 (fun _ => []) letterStream [2, 2] 1).eval (Store.serve contentTag) letterPages).1.map
      (fun seen => (seen.1.map (·.seq), seen.2.isSome)) = some ([2, 3, 4], true) := by
  decide +kernel

/-- Live replay reads the events behind the floor in two pages, and strict reads agree. -/
theorem replay_agrees_letter :
    (∃ events t, events.map (·.seq) = [2, 3] ∧
      (read Serde.crates Keyspace.letterSpace 9 (fun _ => []) letterStream 1 2).Runs Backend.honest.exec letterPages (.page events false) t ∧
      letterStream.Hinted Keyspace.letterSpace letterPages t ∧
      letterStream.Says Serde.crates Keyspace.letterSpace .honest letterPages 2 1 (.page events false) ∧
      letterStream.Agrees Serde.crates Keyspace.letterSpace letterPages 2 1 (.page events false)) ∧
    ∃ seen t, seen.1.map (·.seq) = [2, 3, 4] ∧
      (followRead Serde.crates Keyspace.letterSpace 9 (fun _ => []) letterStream [2, 2] 1).Runs Backend.honest.exec letterPages seen t ∧
      letterStream.Hinted Keyspace.letterSpace letterPages t ∧
      letterStream.Visits Serde.crates Keyspace.letterSpace letterPages .honest 1 seen := by
  have hk : Keyspace.letterSpace.objectKey (letterStream.logKey 0) = .ok (Keyspace.letterSpace.root ++ letterStream.logKey 0) := by
    decide +kernel
  have hfuel : (Keyspace.letterSpace.keys letterPages).length + 1 < 9 := by
    rw [letterPages_keys]
    decide
  obtain ⟨hread, hfollow⟩ := @replay_agrees Serde.crates Keyspace.letterSpace .honest letterPages letterStream 0 9 _ id letterPages_alone hk hfuel
    (fun _ => []) 1
  obtain ⟨hpage, hpages⟩ := letterPages_read
  obtain ⟨replay, hr, hreplay⟩ := Option.map_eq_some_iff.1 hpage
  obtain ⟨seen, hs, hseen⟩ := Option.map_eq_some_iff.1 hpages
  have hruns := runs_of_eval_fst hr
  have hfollowed := runs_of_eval_fst hs
  constructor
  · cases replay with
    | page events complete =>
      obtain ⟨hseqs, rfl⟩ := Prod.ext_iff.1 (Option.some.inj hreplay)
      exact ⟨events, _, hseqs, hruns, hread 2 _ _ (by decide) hruns⟩
    | _ => cases hreplay
  · exact ⟨seen, _, (Prod.ext_iff.1 hseen).1, hfollowed, hfollow [2, 2] seen _ (by decide) hfollowed⟩

end YeetzS3.Streams
