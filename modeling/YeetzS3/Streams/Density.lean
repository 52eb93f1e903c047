import YeetzS3.Conc.Play
import YeetzS3.Streams.Serde
import YeetzS3.Streams.Space

/-!
# Density

The events of a stream that its floor retains form an interval. `Front s n`: every event is below `n`, no certificate is
above it, and what is retained below `n` is there. The front only moves up: an append tries positions it has seen the front
reach, a trim certifies no floor above it, a sweep takes nothing that is retained.
-/

namespace YeetzS3.Streams

open Conc
open Keyspace (AtomicKeyspace ValidPath incarnationKey inlineBytes)

namespace StreamId

variable (stream : StreamId) (K : AtomicKeyspace)

/-- An event position no certificate is above. -/
def Retained (s : Store) (q : UInt64) : Prop := 0 < q ∧ ∀ f, K.Certified s stream.certPrefix f → f ≤ q

/-- `n` is where the retained events end. -/
structure Front (s : Store) (n : ℕ) : Prop where
  pos : 0 < n
  le : n ≤ 2 ^ 64
  below : ∀ q, 0 < q → stream.Present K s q → q.toNat < n
  floor : ∀ f, K.Certified s stream.certPrefix f → f.toNat ≤ n
  dense : ∀ q, stream.Retained K s q → q.toNat < n → stream.Present K s q

/-- The retained events are those up to some position, which no certificate is above. -/
def Interval (s : Store) : Prop := ∃ n, 0 < n ∧ (∀ f, K.Certified s stream.certPrefix f → f.toNat ≤ n) ∧
  ∀ q, stream.Retained K s q → (stream.Present K s q ↔ q.toNat < n)

/-- The front has reached `n`. -/
def Reached (s : Store) (n : ℕ) : Prop := ∃ m, n ≤ m ∧ stream.Front K s m

/-- None of the events was ever destroyed. -/
def Fresh (s : Store) : Prop := ∀ q, s.lookup (K.root ++ incarnationKey (stream.logKey q)) = none

/-- A bucket whose log is dense. -/
structure Dense (B : Backend) (s : Store) : Prop where
  tagged : s.Tagged B
  front : ∃ n, stream.Front K s n
  fresh : stream.Fresh K s

end StreamId

section
variable {stream : StreamId} {K : AtomicKeyspace} {s s' s'' : Store} {o : Object} {m n : ℕ} {p q f : UInt64}

theorem StreamId.Front.unique (hn : stream.Front K s n) (hm : stream.Front K s m) : n = m := by
  have hle : ∀ {n m}, stream.Front K s n → stream.Front K s m → m ≤ n := by
    intro n m hn hm
    by_contra hlt
    have hq : (UInt64.ofNat n).toNat = n := by
      have := hm.le
      rw [UInt64.toNat_ofNat']
      omega
    -- the position at the smaller front is retained, so it is there
    have hpos : 0 < UInt64.ofNat n := by
      rw [UInt64.lt_iff_toNat_lt, hq]
      exact hn.pos
    have hret : stream.Retained K s (UInt64.ofNat n) := ⟨hpos, fun f hf => by
      rw [UInt64.le_iff_toNat_le, hq]
      exact hn.floor f hf⟩
    have hlt' := hn.below _ hpos (hm.dense _ hret (by omega))
    omega
  exact le_antisymm (hle hm hn) (hle hn hm)

/-- The front of a bucket depends on the region alone. -/
theorem agree_present (h : Agree (stream.Region K) s s') (hq : 0 < q) : stream.Present K s' q ↔ stream.Present K s q := by
  rw [StreamId.Present, StreamId.Present, h _ ⟨q, .inl ⟨hq, rfl⟩⟩]

theorem agree_certified (h : Agree (stream.Region K) s s') :
    K.Certified s' stream.certPrefix f ↔ K.Certified s stream.certPrefix f := by
  rw [AtomicKeyspace.Certified, AtomicKeyspace.Certified, h _ ⟨f, .inr (.inr rfl)⟩]

theorem agree_retained (h : Agree (stream.Region K) s s') : stream.Retained K s' q ↔ stream.Retained K s q := by
  rw [StreamId.Retained, StreamId.Retained]
  simp only [agree_certified h]

theorem agree_front (h : Agree (stream.Region K) s s') (hn : stream.Front K s n) : stream.Front K s' n where
  pos := hn.pos
  le := hn.le
  below q hq hp := hn.below q hq ((agree_present h hq).1 hp)
  floor f hf := hn.floor f ((agree_certified h).1 hf)
  dense q hr hlt := (agree_present h hr.1).2 (hn.dense q ((agree_retained h).1 hr) hlt)

theorem agree_fresh (h : Agree (stream.Region K) s s') (hf : stream.Fresh K s) : stream.Fresh K s' := fun q => by
  rw [h _ ⟨q, .inr (.inl rfl)⟩]
  exact hf q

end

/-- The law of a dense log: certificates are kept, the front does not move down, and retained events are not changed. -/
def densityLaw (B : Backend) (K : AtomicKeyspace) (stream : StreamId) : Law Store where
  Good s := stream.Dense K B s
  Goes s s' := (∀ f, K.Certified s stream.certPrefix f → K.Certified s' stream.certPrefix f) ∧
    (∀ n, stream.Front K s n → ∃ n', n ≤ n' ∧ stream.Front K s' n') ∧
    ∀ q, stream.Retained K s' q → ∀ o, s.lookup (K.root ++ stream.logKey q) = some o → s'.lookup (K.root ++ stream.logKey q) = some o
  refl s := ⟨fun _ => id, fun n hn => ⟨n, le_rfl, hn⟩, fun _ _ _ => id⟩
  trans := by
    rintro s t u ⟨hc₁, hf₁, ho₁⟩ ⟨hc₂, hf₂, ho₂⟩
    refine ⟨fun f => hc₂ f ∘ hc₁ f, fun n hn => ?_, fun q hq o ho => ?_⟩
    · obtain ⟨m, hnm, hm⟩ := hf₁ n hn
      obtain ⟨k, hmk, hk⟩ := hf₂ m hm
      exact ⟨k, hnm.trans hmk, hk⟩
    · exact ho₂ q hq o (ho₁ q ⟨hq.1, fun f hf => hq.2 f (hc₂ f hf)⟩ o ho)

section
variable {X : Crates} {B : Backend} {stream : StreamId} {K : AtomicKeyspace} {s s' : Store} {d : Bytes} {e : Etag} {o : Object}
  {m n : ℕ} {p q f : UInt64} {pfx : Str}

theorem densityLaw_over : LawOver B (stream.Region K) (densityLaw B K stream) where
  tagged _ hs := hs.tagged
  frame s s' hs ht ha := by
    obtain ⟨-, ⟨n, hn⟩, hf⟩ := hs
    refine ⟨⟨ht, ⟨n, agree_front ha hn⟩, agree_fresh ha hf⟩, fun f => (agree_certified ha).2, fun m hm => ⟨m, le_rfl, agree_front ha hm⟩, ?_⟩
    intro q hq o ho
    rw [ha _ ⟨q, .inl ⟨hq.1, rfl⟩⟩, ho]

theorem densityLaw_uncounted (seq : UInt64) : Keyspace.Uncounted K (densityLaw B K stream) (stream.logKey seq) :=
  fun _ hs => hs.fresh seq

theorem densityLaw_log : LogLaw X K B stream (densityLaw B K stream) where
  uncounted := densityLaw_uncounted
  tail _ hs := letsPublish_tail densityLaw_over hs

theorem certified_stable (f : UInt64) : (densityLaw B K stream).Stable fun s => K.Certified s stream.certPrefix f :=
  fun _ _ _ _ hg => hg.1 f

theorem reached_stable (n : ℕ) : (densityLaw B K stream).Stable fun s => stream.Reached K s n := by
  rintro s s' - - ⟨-, hf, -⟩ ⟨m, hnm, hm⟩
  obtain ⟨m', hm', hfront⟩ := hf m hm
  exact ⟨m', hnm.trans hm', hfront⟩

/-! ### Steps -/

/-- An event that lands at a position the front has reached. -/
theorem front_insert_event (hp : 0 < p) (hn : stream.Front K s n) (hle : p.toNat ≤ n) :
    stream.Front K (s.insert (K.root ++ stream.logKey p) o) (max n (p.toNat + 1)) := by
  refine ⟨by have := hn.pos; omega, ?_, fun q hq hq' => ?_, fun f hf => ?_, fun q hq hlt => ?_⟩
  · have := hn.le
    have := p.toNat_lt
    omega
  · rcases present_insert_event.1 hq' with rfl | hq'
    · omega
    · have := hn.below q hq hq'
      omega
  · have := hn.floor f (certified_insert_event.1 hf)
    omega
  · rw [present_insert_event]
    by_cases hqp : q = p
    · exact .inl hqp
    · refine .inr (hn.dense q ⟨hq.1, fun f hf => hq.2 f (certified_insert_event.2 hf)⟩ ?_)
      have : q.toNat ≠ p.toNat := fun h => hqp (UInt64.toNat_inj.1 h)
      omega

theorem density_insert_event (hp : 0 < p) (hs : (densityLaw B K stream).Good s) (hr : stream.Reached K s p.toNat)
    (hnone : s.lookup (K.root ++ stream.logKey p) = none) (he : B.tags d e) :
    (densityLaw B K stream).Good (s.insert (K.root ++ stream.logKey p) ⟨d, e⟩) ∧
      (densityLaw B K stream).Goes s (s.insert (K.root ++ stream.logKey p) ⟨d, e⟩) := by
  obtain ⟨ht, -, hfresh⟩ := hs
  obtain ⟨n, hle, hn⟩ := hr
  refine ⟨⟨ht.insert he, ⟨_, front_insert_event hp hn hle⟩, fun q => ?_⟩, fun f => certified_insert_event.2, fun m hm => ?_, fun q _ o ho => ?_⟩
  · rw [counter_insert_event]
    exact hfresh q
  · obtain rfl := hm.unique hn
    exact ⟨_, le_max_left .., front_insert_event hp hn hle⟩
  · by_cases hqp : q = p
    · rw [hqp, hnone] at ho
      cases ho
    · rw [lookup_insert_key fun he => hqp (StreamId.logKey_injective he), ho]

/-- A certificate at most at the front. -/
theorem front_insert_cert (hn : stream.Front K s n) (hle : f.toNat ≤ n) :
    stream.Front K (s.insert (K.root ++ (stream.certPrefix ++ seqComponent f)) o) n := by
  refine ⟨hn.pos, hn.le, fun q hq hq' => hn.below q hq (present_insert_cert.1 hq'), fun g hg => ?_, fun q hq hlt => ?_⟩
  · rcases certified_insert_cert.1 hg with rfl | hg
    · exact hle
    · exact hn.floor g hg
  · exact present_insert_cert.2 (hn.dense q ⟨hq.1, fun g hg => hq.2 g (certified_insert_cert.2 (.inr hg))⟩ hlt)

theorem density_insert_cert (hs : (densityLaw B K stream).Good s) (hr : stream.Reached K s f.toNat) (he : B.tags d e) :
    (densityLaw B K stream).Good (s.insert (K.root ++ (stream.certPrefix ++ seqComponent f)) ⟨d, e⟩) ∧
      (densityLaw B K stream).Goes s (s.insert (K.root ++ (stream.certPrefix ++ seqComponent f)) ⟨d, e⟩) := by
  obtain ⟨ht, -, hfresh⟩ := hs
  obtain ⟨n, hle, hn⟩ := hr
  refine ⟨⟨ht.insert he, ⟨n, front_insert_cert hn hle⟩, fun q => ?_⟩, fun g hg => certified_insert_cert.2 (.inr hg), fun m hm => ?_, fun q _ o ho => ?_⟩
  · rw [counter_insert_cert]
    exact hfresh q
  · obtain rfl := hm.unique hn
    exact ⟨m, le_rfl, front_insert_cert hn hle⟩
  · rw [lookup_insert_key StreamId.logKey_ne_cert, ho]

/-- A sweep below a certificate. -/
theorem density_sweep (hs : (densityLaw B K stream).Good s) (hf : K.Certified s stream.certPrefix f)
    (hpfx : pfx ∈ Keyspace.sweptPrefixes stream.logPrefix) (hlt : p < f) :
    (densityLaw B K stream).Good (s.erase (K.root ++ (pfx ++ seqComponent p))) ∧
      (densityLaw B K stream).Goes s (s.erase (K.root ++ (pfx ++ seqComponent p))) := by
  obtain ⟨ht, ⟨n, hn⟩, hfresh⟩ := hs
  obtain ⟨hlog, hcert, hcounter⟩ := @lookup_erase_swept _ K s p _ hpfx
  have hc : ∀ g, K.Certified (s.erase (K.root ++ (pfx ++ seqComponent p))) stream.certPrefix g ↔ K.Certified s stream.certPrefix g := by
    intro g
    rw [AtomicKeyspace.Certified, AtomicKeyspace.Certified, hcert]
  have hne : ∀ q, stream.Retained K (s.erase (K.root ++ (pfx ++ seqComponent p))) q → q ≠ p := by
    rintro q hq rfl
    exact absurd (hq.2 f ((hc f).2 hf)) (UInt64.not_le.2 hlt)
  have hfront : ∀ m, stream.Front K s m → stream.Front K (s.erase (K.root ++ (pfx ++ seqComponent p))) m := by
    intro m hm
    refine ⟨hm.pos, hm.le, fun q hq hq' => ?_, fun g hg => hm.floor g ((hc g).1 hg), fun q hq hlt => ?_⟩
    · refine hm.below q hq fun hnone => hq' ?_
      by_cases he : K.root ++ stream.logKey q = K.root ++ (pfx ++ seqComponent p)
      · rw [he, AList.lookup_erase]
      · rw [AList.lookup_erase_ne he, hnone]
    · rw [StreamId.Present, hlog q (hne q hq)]
      exact hm.dense q ⟨hq.1, fun g hg => hq.2 g ((hc g).2 hg)⟩ hlt
  refine ⟨⟨ht.erase, ⟨n, hfront n hn⟩, fun q => hcounter q (hfresh q)⟩, fun g => (hc g).2, fun m hm => ⟨m, le_rfl, hfront m hm⟩, fun q hq o ho => ?_⟩
  rw [hlog q (hne q hq), ho]

/-! ### Calls -/

variable {Call : Type} {Res : Call → Type} {S : System Store Req Resp Call Res} {t fuel : ℕ} {h : History Call Res}
  {schemaId : SchemaId} {stableEventId : StableEventId} {payload : Bytes} {ids : ℕ → Bytes}

/-- The front is behind every event that was seen. -/
theorem reached_of_seen (hI : (densityLaw B K stream).Inv B.delivers h) (hq : 0 < q) (hs : h.Since n (stream.Present K · q)) :
    stream.Reached K h.store (q.toNat + 1) := by
  refine (reached_stable _).since hI (hI.good_since hs |>.imp ?_)
  rintro s ⟨hgood, hp⟩
  obtain ⟨m, hm⟩ := hgood.front
  exact ⟨m, hm.below q hq hp, hm⟩

theorem reached_of_witnessed (hI : (densityLaw B K stream).Inv B.delivers h) (hw : Witnessed stream K h n p) :
    stream.Reached K h.store (p.toNat + 1) := by
  obtain ⟨m, hm⟩ := hI.state.front
  by_cases hp : p = 0
  · refine ⟨m, ?_, hm⟩
    rw [hp]
    exact hm.pos
  · obtain ⟨q, hle, hs⟩ := hw.resolve_left hp
    have hle := UInt64.le_iff_toNat_le.1 hle
    have hq : 0 < q := by
      have : p.toNat ≠ 0 := fun h => hp (UInt64.toNat_inj.1 h)
      rw [UInt64.lt_iff_toNat_lt, UInt64.toNat_zero]
      omega
    obtain ⟨m, hm, hfront⟩ := reached_of_seen hI hq hs
    exact ⟨m, by omega, hfront⟩

/-- What an append of a dense log knows of the position it tries next. -/
theorem density_guessed : Guessed X K B stream schemaId stableEventId payload n (densityLaw B K stream)
    fun g (h : History Call Res) => 0 < g ∧ stream.Reached K h.store g.toNat where
  mono g h h' hh hI' hat := ⟨hat.1, (reached_stable _).store hI' hh hat.2⟩
  lets g h hI hat hv envelope _ := by
    refine lets_create hI.state fun hnone e he => ?_
    rw [pathFrom_key hv] at hnone ⊢
    exact density_insert_event hat.1 hI.state hat.2 hnone he
  next g h hI hat hmax hs := by
    rw [toNat_succ hmax]
    refine ⟨?_, reached_of_seen hI hat.1 (hs.imp fun s ⟨_, _, hread, _⟩ => hread.present)⟩
    rw [UInt64.lt_iff_toNat_lt, toNat_succ hmax]
    exact Nat.succ_pos _

theorem reached_of_snapshot {h₀ : History Call Res} {listMax hintSeq floor : UInt64}
    (hI : (densityLaw B K stream).Inv B.delivers h) (hsnap : Snapshot K B stream h₀ h listMax hintSeq floor)
    (hmax : max listMax hintSeq ≠ maxSeq) :
    0 < max (max listMax hintSeq + 1) floor ∧ stream.Reached K h.store (max (max listMax hintSeq + 1) floor).toNat := by
  obtain ⟨m, h₁, hm⟩ := reached_of_witnessed hI hsnap.list
  obtain ⟨m', h₂, hm'⟩ := reached_of_witnessed hI hsnap.hint
  obtain rfl := hm'.unique hm
  have hfloor : floor.toNat ≤ m' := by
    obtain ⟨h₁, answer, -, -, rfl, htold⟩ := hsnap.floor
    cases answer with
    | none => exact Nat.zero_le _
    | some f => exact hm.floor f ((certified_stable f).since hI (htold.sound f rfl))
  have hsucc := toNat_succ hmax
  rw [toNat_max] at hsucc
  refine ⟨?_, _, ?_, hm⟩
  · rw [UInt64.lt_iff_toNat_lt, toNat_max, UInt64.toNat_zero]
    omega
  · rw [toNat_max]
    omega

/-- An append keeps the log dense. -/
theorem density_append (hS : S.exec = B.delivers) (hI : (densityLaw B K stream).Inv B.delivers h) :
    Safe S ((densityLaw B K stream).Inv B.delivers) t (append X K fuel ids stream schemaId stableEventId payload).run
      (fun _ _ => True) h :=
  (safe_append hS densityLaw_log certified_stable density_guessed hI fun _ _ _ _ _ hI₁ => reached_of_snapshot hI₁).imp
    fun _ _ _ _ _ => trivial

theorem density_appendExpected {predecessor : EventRef} (hp : predecessor.streamId = stream) (hS : S.exec = B.delivers)
    (hI : (densityLaw B K stream).Inv B.delivers h) :
    Safe S ((densityLaw B K stream).Inv B.delivers) t
      (appendExpected X K fuel ids predecessor schemaId stableEventId payload).run (fun _ _ => True) h := by
  subst hp
  refine safe_appendExpected hS densityLaw_uncounted hI fun h₁ targetSeq envelope hle hI₁ hpred hadmit hv => ?_
  have htarget : targetSeq.toNat = predecessor.seq.toNat + 1 := toNat_of_checkedSucc (admit_ok hadmit).1
  have hreached : predecessor.streamId.Reached K h₁.store (predecessor.seq.toNat + 1) :=
    reached_of_witnessed hI₁ (hpred.imp_right fun hs => ⟨predecessor.seq, UInt64.le_refl _, hs⟩)
  refine lets_create hI₁.state fun hnone e he => ?_
  rw [pathFrom_key hv] at hnone ⊢
  refine density_insert_event ?_ hI₁.state ?_ hnone he
  · rw [UInt64.lt_iff_toNat_lt, htarget]
    exact Nat.succ_pos _
  · rwa [htarget]

theorem density_trim {firstRetained : UInt64} (hS : S.exec = B.delivers) (hI : (densityLaw B K stream).Inv B.delivers h) :
    Safe S ((densityLaw B K stream).Inv B.delivers) t (trim X K fuel stream firstRetained).run (fun _ _ => True) h := by
  refine safe_trim hS hI fun h₁ logEnd hle hI₁ hw hz hend hv => ?_
  refine lets_create hI₁.state fun _ e he => ?_
  rw [pathFrom_key hv]
  refine density_insert_cert hI₁.state ?_ he
  obtain ⟨m, hm, hfront⟩ := reached_of_witnessed hI₁ hw
  have hend := UInt64.le_iff_toNat_le.1 hend
  refine ⟨m, hend.trans (le_trans ?_ hm), hfront⟩
  rw [UInt64.toNat_add, UInt64.toNat_one]
  exact Nat.mod_le _ _

theorem density_gc (hS : S.exec = B.delivers) (hI : (densityLaw B K stream).Inv B.delivers h) :
    Safe S ((densityLaw B K stream).Inv B.delivers) t (gc K fuel stream).run (fun _ _ => True) h := by
  refine safe_gc hS certified_stable hI fun s floor pfx seq hs hc hp h0 hlt hv => lets_delete hs ?_
  rw [pathFrom_key hv]
  exact density_sweep hs hc hp hlt

end

/-! ### Every call on the log -/

/-- The calls that create a stream, write its log, collect it and read it; no cursors, seals or migrations. -/
def StreamCall.OnLog (stream : StreamId) (c : StreamCall) : Prop := c.stream = stream ∧ match c with
  | .advanceCursor _ _ _ _ | .migrateLog _ _ _ | .writeMigrationSeal _ _ _ => False
  | _ => True

section
variable {X : Crates} {B : Backend} {stream : StreamId} {K : AtomicKeyspace} {fuel : ℕ}

/-- What publishes only at the genesis and the tail hint keeps the log dense. -/
theorem density_aside {Call : Type} {Res : Call → Type} {S : System Store Req Resp Call Res} {t : ℕ} {h : History Call Res}
    (hS : S.exec = B.delivers) (c : StreamCall)
    (hp : ∀ key, c.Publishes key → ¬ stream.Region K (K.root ++ key))
    (hu : ∀ sc, c.Uses sc → ∃ key, c.Publishes key ∧ sc.publishes = some key) :
    Safe S ((densityLaw B K stream).Inv B.delivers) t (c.prog X K fuel) (fun _ _ => True) h := by
  refine Law.safe_of_every (P := c.Asks X K) hS (fun s r hs hr => ?_) c.asks
  rcases hr with hr | ⟨sc, huses, hw⟩
  · exact lets_looks hs (Keyspace.looks_of_reads r hr)
  · obtain ⟨key, hkey, hsc⟩ := hu sc huses
    exact letsPublish_of_not densityLaw_over (hp key hkey) hs sc hsc r hw

theorem density_call {Call : Type} {Res : Call → Type} {S : System Store Req Resp Call Res} {t : ℕ} {h : History Call Res}
    (hS : S.exec = B.delivers) {c : StreamCall} (hc : c.OnLog stream) (hI : (densityLaw B K stream).Inv B.delivers h) :
    Safe S ((densityLaw B K stream).Inv B.delivers) t (c.prog X K fuel) (fun _ _ => True) h := by
  obtain ⟨rfl, hc⟩ := hc
  cases c with
  | append => exact density_append hS hI
  | appendExpected => exact density_appendExpected rfl hS hI
  | trim => exact density_trim hS hI
  | gc => exact density_gc hS hI
  | advanceCursor | migrateLog | writeMigrationSeal => exact hc.elim
  | _ =>
    refine density_aside hS _ ?_ ?_
    · rintro key (_ | _)
      all_goals first | exact StreamId.not_region_genesis | exact StreamId.not_region_tail
    · rintro sc (⟨hkey, hsc⟩ | _ | _)
      exact ⟨_, hkey, hsc⟩

/-- A bucket without objects is dense. -/
theorem dense_empty : stream.Dense K B ∅ where
  tagged p o h := by cases h
  front := ⟨1, Nat.one_pos, by decide, fun q _ hq => absurd rfl hq, fun f hf => absurd rfl hf, fun q hq hlt => by
    have := UInt64.lt_iff_toNat_lt.1 hq.1
    rw [UInt64.toNat_zero] at this
    omega⟩
  fresh _ := rfl

/-- In every run of calls on one stream the retained events are those from the floor up to some position, and a retained
event is not changed. -/
theorem stays_dense {w : World Store Req Resp {c : StreamCall // c.OnLog stream} fun c => c.1.Res}
    (hw : Reach (streamSystem X K B fuel (StreamCall.OnLog stream) (stream.Dense K B)) w) :
    (∀ i ≤ w.hist.now, stream.Interval K (w.hist.storeAt i)) ∧
    ∀ i j, i ≤ j → j ≤ w.hist.now → ∀ q, stream.Retained K (w.hist.storeAt j) q →
      ∀ o, (w.hist.storeAt i).lookup (K.root ++ stream.logKey q) = some o →
        (w.hist.storeAt j).lookup (K.root ++ stream.logKey q) = some o := by
  obtain ⟨hI, -⟩ := @Law.reach _ _ _ _ _ (densityLaw B K stream) _ _ (fun _ _ _ _ => True) _ (fun _ hs => hs)
    (fun h c hI => density_call rfl c.2 (hI.start (densityLaw B K stream).refl c)) hw
  refine ⟨fun i hi => ?_, fun i j hij hj => ?_⟩
  · obtain ⟨n, hn⟩ := (hI.stateAt hi).front
    exact ⟨n, hn.pos, hn.floor, fun q hq => ⟨hn.below q hq.1, hn.dense q hq⟩⟩
  · exact (hI.rel (densityLaw B K stream).refl (densityLaw B K stream).trans (fun _ _ _ _ => id) hij hj).2.2

end

/-- The one-letter stream is created, gets two events, is trimmed at the second and collected. -/
def letterRun : World Store Req Resp {c : StreamCall // c.OnLog letterStream} fun c => c.1.Res :=
  let S := streamSystem Serde.crates Keyspace.letterSpace .honest 9 (StreamCall.OnLog letterStream)
    (letterStream.Dense Keyspace.letterSpace .honest)
  let event (n : UInt8) : StreamCall := .append letterStream ⟨"x".toList⟩ ⟨['e', Char.ofNat n.toNat]⟩ [n] fun _ => []
  (((((⟨.empty ∅, fun _ => none⟩ : World Store Req Resp _ _).alone S.prog (Store.serve contentTag)
    ⟨.createStreamWithId letterStream [] fun _ => [], rfl, trivial⟩ 10).alone S.prog (Store.serve contentTag)
    ⟨event 49, rfl, trivial⟩ 20).alone S.prog (Store.serve contentTag)
    ⟨event 50, rfl, trivial⟩ 20).alone S.prog (Store.serve contentTag)
    ⟨.trim letterStream 2, rfl, trivial⟩ 20).alone S.prog (Store.serve contentTag)
    ⟨.gc letterStream, rfl, trivial⟩ 20

theorem reach_letterRun : Reach (streamSystem Serde.crates Keyspace.letterSpace .honest 9 (StreamCall.OnLog letterStream)
    (letterStream.Dense Keyspace.letterSpace .honest)) letterRun :=
  (((((Reach.init dense_empty).alone Backend.delivers_honest _ 10).alone Backend.delivers_honest _ 20).alone
    Backend.delivers_honest _ 20).alone Backend.delivers_honest _ 20).alone Backend.delivers_honest _ 20

/-- In the end the second event is there, the first is not, and density holds. -/
theorem stays_dense_letter : letterRun.hist.store.lookup (Keyspace.letterSpace.root ++ letterStream.logKey 1) = none ∧
    letterRun.hist.store.lookup (Keyspace.letterSpace.root ++ letterStream.logKey 2) ≠ none ∧
    letterStream.Interval Keyspace.letterSpace letterRun.hist.store := by
  have hstore : letterRun.hist.store.lookup (Keyspace.letterSpace.root ++ letterStream.logKey 1) = none ∧
      letterRun.hist.store.lookup (Keyspace.letterSpace.root ++ letterStream.logKey 2) ≠ none := by decide +kernel
  refine ⟨hstore.1, hstore.2, ?_⟩
  rw [← Hist.storeAt_now]
  exact (stays_dense reach_letterRun).1 _ le_rfl

end YeetzS3.Streams
