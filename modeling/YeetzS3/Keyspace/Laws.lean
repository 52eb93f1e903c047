import YeetzS3.Laws
import YeetzS3.Conc.Play
import YeetzS3.Keyspace.Machine
import YeetzS3.Lineage.Serde

/-!
# Laws of one key

What clients of one key may rely on, in every run of `keySystem`: an etag is consumed once and only in
an open lifetime (`consumed_once`), a value that was there is never forgotten (`never_forgotten`), and
once every call has returned a value that is there can be advanced (`open_at_rest`), unless a destroy
moved the counter over a value it had not seen.
-/

namespace YeetzS3.Keyspace

open Conc Slots

/-- Incarnations in order, and within one incarnation versions in order. -/
def Stamp.Before (a b : Stamp) : Prop :=
  a.incarnation < b.incarnation ∨ a.incarnation = b.incarnation ∧ a.version < b.version

instance (a b : Stamp) : Decidable (a.Before b) := inferInstanceAs (Decidable (_ ∨ _ ∧ _))

/-- Versions grow along a lifetime. -/
theorem version_lt {b d : Bytes} (h : lifetimes.next b d) :
    (stampOf b).version.toNat < (stampOf d).version.toNat := by
  rw [h.2]
  exact Nat.lt_succ_self _

/-- What follows in a lifetime is stamped later. -/
theorem before_of_next {b d : Bytes} (h : Relation.TransGen lifetimes.next b d) : (stampOf b).Before (stampOf d) := by
  have : (stampOf b).incarnation = (stampOf d).incarnation ∧ (stampOf b).version.toNat < (stampOf d).version.toNat := by
    induction h with
    | single h => exact ⟨h.1.symm, version_lt h⟩
    | tail _ h ih => exact ⟨ih.1.trans h.1.symm, ih.2.trans (version_lt h)⟩
  exact .inr ⟨this.1, UInt64.lt_iff_toNat_lt.2 this.2⟩

/-- Call `t`, a write that puts its control with condition `cond`, was told it succeeded. -/
def Acknowledged (h : History KeyCall KeyCall.Res) (t : ℕ) (cond : Option Etag) : Prop :=
  ∃ i c a, h.Done i t c (.ok a) ∧ c.presents = some cond

variable {O : Outside} {K : AtomicKeyspace} {fuel : ℕ} {key : Key K} {B : Backend}
  {w : World Store Req Resp KeyCall KeyCall.Res}

/-! ### Runs on an honest backend -/

/-- Functions of other crates, for runs that never read a tombstone or a chunk back. -/
def plain : Outside := ⟨fun _ => [], fun _ => [], fun _ => none⟩

/-- A keyspace with one letter for its namespace. -/
def letterSpace : AtomicKeyspace := ⟨"n".toList, by decide⟩

/-- A key of one letter. -/
def letterKey : Key letterSpace := ⟨"k".toList, by decide⟩

/-- The run of a schedule, on an empty bucket that answers honestly. -/
def letterRun (ms : List (Move KeyCall)) : World Store Req Resp KeyCall KeyCall.Res :=
  .play (keySystem plain 1 letterKey .honest).prog (Store.serve contentTag) ∅ ms

theorem letter_reach (O : Outside) (ms : List (Move KeyCall)) : Reach (keySystem O 1 letterKey .honest)
    (.play (keySystem O 1 letterKey .honest).prog (Store.serve contentTag) ∅ ms) :=
  Reach.play (S := keySystem O 1 letterKey .honest) Backend.exec_honest
    (show Store.Tagged .honest ∅ ∧ _ from ⟨fun _ _ => nofun, rfl, fun h => h rfl⟩) ms

theorem letterRun_reach (ms : List (Move KeyCall)) : Reach (keySystem plain 1 letterKey .honest) (letterRun ms) := letter_reach plain ms

/-- A value is created, and replaced by a client that read it. -/
def createThenReplace : List (Move KeyCall) :=
  .start (.create [1] fun _ => []) :: List.replicate 4 (.step 0) ++
    .start (.compareExchange (contentTag (ValueEnvelope.encode ⟨0, 0, [1]⟩)) [2] []) :: List.replicate 5 (.step 5)

/-! ### The laws -/

/-- Every etag is consumed at most once, and only in an open lifetime. -/
structure ConsumedOnce (key : Key K) (h : History KeyCall KeyCall.Res) : Prop where
  landed : ∀ {t cond}, Acknowledged h t cond → ∃ ℓ d, key.slots.Landing h t ℓ d cond
  replaced : ∀ {t e ℓ d}, Acknowledged h t (some e) → key.slots.Landing h t ℓ d (some e) →
    ∃ o, key.slots.object (h.storeAt ℓ) = some o ∧ o.etag = e
  once : ∀ {t t' e}, Acknowledged h t (some e) → Acknowledged h t' (some e) → t = t'
  increase : ∀ {t t' cond cond' ℓ ℓ' d d'}, Acknowledged h t cond → key.slots.Landing h t ℓ d cond →
    Acknowledged h t' cond' → key.slots.Landing h t' ℓ' d' cond' → ℓ < ℓ' → (stampOf d).Before (stampOf d')
  opened : ∀ {t cond ℓ d}, Acknowledged h t cond → key.slots.Landing h t ℓ d cond →
    key.slots.count (h.storeAt ℓ) = (stampOf d).incarnation.toNat

theorem acked_of_acknowledged (hw : Reach (keySystem O fuel key B) w) (hf : ¬ B.faults) {t : ℕ} {cond : Option Etag}
    (ha : Acknowledged w.hist t cond) : key.slots.Acked B lifetimes w.hist t cond := by
  obtain ⟨i, c, a, hd, hc⟩ := ha
  exact ((returned hw).2 i t c _ hd).acked cond hc a rfl hf

theorem consumed_once (hB : B.Sound) (hf : ¬ B.faults) (hw : Reach (keySystem O fuel key B) w) :
    ConsumedOnce key w.hist := by
  obtain ⟨hI, -⟩ := returned hw
  refine ⟨fun ha => (acked_of_acknowledged hw hf ha).landing, fun ha hl => ?_, fun {t t' e} ha ha' => ?_,
    fun {t t' cond cond' ℓ ℓ' d d'} ha hl ha' hl' hlt => ?_, fun {t cond ℓ d} ha hl => ?_⟩
  · obtain ⟨n, b, hp, -, -⟩ := (acked_of_acknowledged hw hf ha).published hl
    exact hp.replaced hI
  · obtain ⟨ℓ, n, d, hp, b, hb, hr⟩ := acked_of_acknowledged hw hf ha
    obtain ⟨ℓ', n', d', hp', b', hb', hr'⟩ := acked_of_acknowledged hw hf ha'
    have hge : ¬ ℓ < ℓ' := etag_once (fun _ _ => version_lt) hI hB hp hp' hr' hb'
    have hle : ¬ ℓ' < ℓ := etag_once (fun _ _ => version_lt) hI hB hp' hp hr hb
    obtain rfl : ℓ = ℓ' := by omega
    obtain ⟨y, hy⟩ := hp.asked
    obtain ⟨y', hy'⟩ := hp'.asked
    exact (asked_inj hy hy').1
  · obtain ⟨n, b, hp, hb, hr⟩ := (acked_of_acknowledged hw hf ha).published hl
    obtain ⟨n', b', hp', hb', hr'⟩ := (acked_of_acknowledged hw hf ha').published hl'
    rcases landings_increase hI hB hp hr hb hp' hr' hb' hlt with hn | ⟨-, hdd⟩
    · rw [← hp.stamp, ← hp'.stamp] at hn
      exact .inl (UInt64.lt_iff_toNat_lt.2 hn)
    · exact before_of_next hdd
  · obtain ⟨n, b, hp, hb, hr⟩ := (acked_of_acknowledged hw hf ha).published hl
    rw [hp.count_landing hr hb hI hB, ← hp.stamp]
    rfl

set_option maxRecDepth 10000 in
/-- In the run of a create and a replacement both are acknowledged. -/
theorem consumed_once_createThenReplace : ConsumedOnce letterKey (letterRun createThenReplace).hist ∧
    (letterRun createThenReplace).hist.now = 11 ∧ ((letterRun createThenReplace).live 5).isNone :=
  ⟨consumed_once Backend.honest_sound id (letterRun_reach _), by decide, by decide⟩

/-- Once a value was visible, no existence read that starts later finds the key absent. -/
theorem never_forgotten (hw : Reach (keySystem O fuel key B) w) {i k t : ℕ} {c : KeyCall} {res : c.Res}
    (hk : k ≤ t) (hv : key.slots.object (w.hist.storeAt k) ≠ none) (hd : w.hist.Done i t c res) :
    ¬ c.SaysAbsent res := by
  intro ha
  obtain ⟨hI, hret⟩ := returned hw
  exact hv (((hret i t c res hd).missed ha).never hI hk)

/-- A value is created and destroyed, and then the existence of the key is read. -/
def destroyThenRead : List (Move KeyCall) :=
  .start (.create [1] fun _ => []) :: List.replicate 4 (.step 0) ++
    .start (.destroy "spent".toList "sweeper".toList 7) :: List.replicate 6 (.step 5) ++
    .start .readState :: List.replicate 4 (.step 12)

/-- The run of a schedule whose tombstones are serde's. -/
def serdeRun (ms : List (Move KeyCall)) : World Store Req Resp KeyCall KeyCall.Res :=
  .play (keySystem Lineage.Serde.crates.toOutside 1 letterKey .honest).prog (Store.serve contentTag) ∅ ms

theorem serdeRun_reach (ms : List (Move KeyCall)) :
    Reach (keySystem Lineage.Serde.crates.toOutside 1 letterKey .honest) (serdeRun ms) := letter_reach _ ms

/-- The existence read that returns at a step. -/
def stateRead (h : History KeyCall KeyCall.Res) (i : ℕ) : Option (ℕ × Except KeyspaceError KeyState) :=
  match h.steps[i]? with
  | some ⟨.done t .readState res, _, _⟩ => some (t, res)
  | _ => none

theorem done_of_stateRead {h : History KeyCall KeyCall.Res} {i t : ℕ} {res : Except KeyspaceError KeyState}
    (hs : stateRead h i = some (t, res)) : h.Done i t .readState res := by
  unfold stateRead at hs
  split at hs
  · next he =>
    cases hs
    exact ⟨_, he, rfl⟩
  · cases hs

set_option maxRecDepth 10000 in
theorem destroyThenRead_run :
    stateRead (serdeRun destroyThenRead).hist 16 = some (12, .ok (.destroyed (.mint 0 0 "spent".toList "sweeper".toList 7))) ∧
    (letterKey.slots.object ((serdeRun destroyThenRead).hist.storeAt 5)).isSome ∧
    letterKey.slots.object ((serdeRun destroyThenRead).hist.storeAt 12) = none := by
  decide +kernel

/-- A value that was destroyed is read as destroyed. -/
theorem never_forgotten_destroyThenRead : ∃ i t res, (serdeRun destroyThenRead).hist.Done i t .readState res ∧
    letterKey.slots.object ((serdeRun destroyThenRead).hist.storeAt t) = none ∧ ¬ KeyCall.SaysAbsent .readState res := by
  obtain ⟨hread, hv, hgone⟩ := destroyThenRead_run
  have hd := done_of_stateRead hread
  exact ⟨16, 12, _, hd, hgone, never_forgotten (serdeRun_reach _) (k := 5) (by decide) (Option.isSome_iff_ne_none.1 hv) hd⟩

/-- Once every call has returned, a value that is there is of the open incarnation, if no destroy moved the
counter over an open value it had not seen. -/
theorem open_at_rest (hB : B.Sound) (hf : ¬ B.faults) (hw : Reach (keySystem O fuel key B) w)
    (hrest : ∀ t, w.live t = none) (hfair : key.slots.BumpsFairly lifetimes w.hist) {o : Object}
    (ho : key.slots.object w.hist.store = some o) :
    (stampOf o.data).incarnation.toNat = key.slots.count w.hist.store := by
  obtain ⟨hI, hret⟩ := returned hw
  have hcalm := key.calm_iff.2 hf
  have hdone : ∀ {i t r x}, w.hist.Asked i t r x → ∃ j c res, w.hist.Done j t c res := fun ha =>
    (hw.live_or_done ha).resolve_left fun ⟨th, hl⟩ => by
      rw [hrest] at hl
      cases hl
  refine Slots.open_at_rest hI hB hf hw.init_hist.2.1 (fun ℓ t d c y ha => ?_) (fun β t d c y ha => ?_) hfair ho
  · obtain ⟨j, c, res, hd⟩ := hdone ha
    exact (hret j t c res hd).settled hcalm
  · obtain ⟨j, c, res, hd⟩ := hdone ha
    exact (hret j t c res hd).closed hcalm

end YeetzS3.Keyspace
