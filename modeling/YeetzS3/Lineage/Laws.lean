import YeetzS3.Laws
import YeetzS3.Conc.Play
import YeetzS3.Lineage.Machine
import YeetzS3.Lineage.Serde

/-!
# Laws of one lineage

What clients of one lineage may rely on, in every run of `lineageSystem`: a bump of the counter closes a lifetime
for every writer of it (`closed_by_bump`), a head that was there is never forgotten (`head_never_forgotten`), and
once every call has returned a head that is there can be advanced (`head_open_at_rest`), unless a destroy moved the
counter over a head it had not seen.
-/

namespace YeetzS3.Lineage

open Conc Slots

variable {X : Crates} {l : KernelLineage} {B : Backend} {w : World Store Req Resp LineageCall LineageCall.Res}

/-- Call `t`, an append to `expected`, was told that `head` is now the head. -/
def Acknowledged (h : History LineageCall LineageCall.Res) (t : ℕ) (expected : Option HeadRead) (head : HeadRead) : Prop :=
  ∃ i c res, h.Done i t c res ∧ c.expects = some expected ∧ c.obtains res = some head

/-- Some call returned `head` at step `i`. -/
def Obtained (h : History LineageCall LineageCall.Res) (i : ℕ) (head : HeadRead) : Prop :=
  ∃ t c res, h.Done i t c res ∧ c.obtains res = some head

/-! ### Runs on an honest backend -/

/-- The run of a schedule, on an empty bucket that answers honestly. -/
def letterRun (ms : List (Move LineageCall)) : World Store Req Resp LineageCall LineageCall.Res :=
  .play (lineageSystem Serde.crates letterLineage .honest).prog (Store.serve contentTag) ∅ ms

theorem letterRun_reach (ms : List (Move LineageCall)) :
    Reach (lineageSystem Serde.crates letterLineage .honest) (letterRun ms) :=
  Reach.play (S := lineageSystem Serde.crates letterLineage .honest) Backend.exec_honest
    (show Store.Tagged .honest ∅ ∧ _ from ⟨fun _ _ => nofun, rfl, fun h => h rfl⟩) ms

/-- A head is created, and advanced by a client that was told of it. -/
def createThenAdvance : List (Move LineageCall) :=
  .start (.appendGenesis letterGenesis) :: List.replicate 6 (.step 0) ++
    .start (.appendSuccessor letterSuccessor letterHead) :: List.replicate 7 (.step 7)

/-! ### Lifetimes are closed by the bump -/

/-- Heads are acknowledged in their open lifetime only, and a bump closes it for every head read before. -/
structure ClosedByBump (X : Crates) (l : KernelLineage) (h : History LineageCall LineageCall.Res) : Prop where
  landed : ∀ {t expected head}, Acknowledged h t expected head →
    ∃ ℓ, l.slots.Landing h t ℓ (head.head.canonicalBytes X) (expected.map (·.etag))
  opened : ∀ {t expected head ℓ d c}, Acknowledged h t expected head → l.slots.Landing h t ℓ d c →
    l.slots.count (h.storeAt ℓ) = head.head.incarnation.toNat
  inherits : ∀ {t expected head}, Acknowledged h t (some expected) head →
    head.head.incarnation = expected.head.incarnation
  begun : ∀ {i head}, Obtained h i head → head.head.incarnation.toNat ≤ l.slots.count (h.storeAt i)
  closed : ∀ {i j t expected head ℓ d c}, Obtained h i expected →
    l.slots.count (h.storeAt i) < l.slots.count (h.storeAt j) → j ≤ h.now → Acknowledged h t (some expected) head →
    l.slots.Landing h t ℓ d c → ℓ < j
  monotone : ∀ {i j}, i ≤ j → j ≤ h.now → l.slots.count (h.storeAt i) ≤ l.slots.count (h.storeAt j)

theorem advanced_of_acknowledged (hw : Reach (lineageSystem X l B) w) {t : ℕ} {expected : Option HeadRead} {head : HeadRead}
    (ha : Acknowledged w.hist t expected head) : Advanced X l B w.hist t head.head (expected.map (·.etag)) := by
  obtain ⟨i, c, res, hd, he, ho⟩ := ha
  exact ((returned hw).2 i t c res hd).1.advanced expected he head ho

theorem closed_by_bump (hB : B.Sound) (hw : Reach (lineageSystem X l B) w) : ClosedByBump X l w.hist := by
  obtain ⟨hI, hret⟩ := returned hw
  have hopened : ∀ {t expected head ℓ d c}, Acknowledged w.hist t expected head → l.slots.Landing w.hist t ℓ d c →
      l.slots.count (w.hist.storeAt ℓ) = head.head.incarnation.toNat := by
    intro t expected head ℓ d c ha hl
    obtain ⟨ℓ', b, hp, hb, hr⟩ := advanced_of_acknowledged hw ha
    obtain ⟨rfl, -, -⟩ := hp.landing.unique hl
    exact hp.count_landing hr hb hI hB
  have hinherits : ∀ {t expected head}, Acknowledged w.hist t (some expected) head →
      head.head.incarnation = expected.head.incarnation := by
    rintro t expected head ⟨i, c, res, hd, he, ho⟩
    exact (hret i t c res hd).1.inherits expected he head ho
  have hbegun : ∀ {i head}, Obtained w.hist i head → head.head.incarnation.toNat ≤ l.slots.count (w.hist.storeAt i) := by
    rintro i head ⟨t, c, res, hd, ho⟩
    exact (hret i t c res hd).2 head ho hB
  refine ⟨fun ha => ?_, hopened, hinherits, hbegun, ?_, fun hij hj => hI.count_le hB hij hj⟩
  · obtain ⟨ℓ, b, hp, -, -⟩ := advanced_of_acknowledged hw ha
    exact ⟨ℓ, hp.landing⟩
  · intro i j t expected head ℓ d c hobt hlt hj hack hl
    -- a landing after the bump would have found the counter past the lifetime it is stamped with
    by_contra hge
    have hℓ : ℓ < w.hist.now := let ⟨_, hy⟩ := hl.asked; hy.lt
    have hle := hI.count_le hB (Nat.not_lt.1 hge) hℓ.le
    have hb := hbegun hobt
    rw [hopened hack hl, hinherits hack] at hle
    omega

/-- A head is created and destroyed; its existence is read, a client that was told of it appends, and a head is created again. -/
def destroyThenCreate : List (Move LineageCall) :=
  .start (.appendGenesis letterGenesis) :: List.replicate 6 (.step 0) ++
    .start (.destroy "spent".toList "sweeper".toList 7) :: List.replicate 6 (.step 7) ++
    .start .readHeadState :: List.replicate 3 (.step 14) ++
    .start (.appendSuccessor letterSuccessor letterHead) :: List.replicate 3 (.step 18) ++
    .start (.appendGenesis letterGenesis) :: List.replicate 6 (.step 22)

/-- The call that returns at a step, the head it was to replace and the head it was told of. -/
def told (h : History LineageCall LineageCall.Res) (i : ℕ) : Option (ℕ × Option (Option HeadRead) × Option HeadRead) :=
  match h.steps[i]? with
  | some ⟨.done t c res, _, _⟩ => some (t, c.expects, c.obtains res)
  | _ => none

theorem acknowledged_of_told {h : History LineageCall LineageCall.Res} {i t : ℕ} {expected : Option HeadRead} {head : HeadRead}
    (ht : told h i = some (t, some expected, some head)) : Acknowledged h t expected head := by
  unfold told at ht
  split at ht
  · next t' c res _ _ he =>
    simp only [Option.some.injEq, Prod.mk.injEq] at ht
    obtain ⟨rfl, hexpects, hobtains⟩ := ht
    exact ⟨i, c, res, ⟨_, he, rfl⟩, hexpects, hobtains⟩
  · cases ht

/-- The existence read that returns at a step. -/
def stateRead (h : History LineageCall LineageCall.Res) (i : ℕ) : Option (ℕ × Except KernelError LineageHeadState) :=
  match h.steps[i]? with
  | some ⟨.done t .readHeadState res, _, _⟩ => some (t, res)
  | _ => none

theorem done_of_stateRead {h : History LineageCall LineageCall.Res} {i t : ℕ} {res : Except KernelError LineageHeadState}
    (hs : stateRead h i = some (t, res)) : h.Done i t .readHeadState res := by
  unfold stateRead at hs
  split at hs
  · next he =>
    cases hs
    exact ⟨_, he, rfl⟩
  · cases hs

set_option maxRecDepth 10000 in
theorem destroyThenCreate_told :
    told (letterRun destroyThenCreate).hist 6 = some (0, some none, some letterHead) ∧
    told (letterRun destroyThenCreate).hist 21 = some (18, some (some letterHead), none) ∧
    (told (letterRun destroyThenCreate).hist 28).map (fun a => (a.1, a.2.1, a.2.2.map (·.head.incarnation))) = some (22, some none, some 1) := by
  decide +kernel

set_option maxRecDepth 10000 in
theorem destroyThenCreate_read :
    stateRead (letterRun destroyThenCreate).hist 17 =
      some (14, .ok (.destroyed (.mint 0 0 "spent".toList "sweeper".toList 7))) ∧
    (letterLineage.slots.object ((letterRun destroyThenCreate).hist.storeAt 7)).isSome ∧
    letterLineage.slots.object ((letterRun destroyThenCreate).hist.storeAt 14) = none := by
  decide +kernel

/-- In the run of a genesis, a destroy and a genesis both heads are acknowledged, in two lifetimes, and the append to the
first head behind the destroy is not. -/
theorem closed_by_bump_destroyThenCreate : ClosedByBump Serde.crates letterLineage (letterRun destroyThenCreate).hist ∧
    Acknowledged (letterRun destroyThenCreate).hist 0 none letterHead ∧
    told (letterRun destroyThenCreate).hist 21 = some (18, some (some letterHead), none) ∧
    ∃ head, Acknowledged (letterRun destroyThenCreate).hist 22 none head ∧ head.head.incarnation = 1 := by
  obtain ⟨hfirst, hrefused, hsecond⟩ := destroyThenCreate_told
  refine ⟨closed_by_bump Backend.honest_sound (letterRun_reach _), acknowledged_of_told hfirst, hrefused, ?_⟩
  obtain ⟨⟨t, expected, obtained⟩, hsecond, hmap⟩ := Option.map_eq_some_iff.1 hsecond
  simp only [Prod.mk.injEq] at hmap
  obtain ⟨rfl, rfl, hmap⟩ := hmap
  obtain ⟨head, rfl, hincarnation⟩ := Option.map_eq_some_iff.1 hmap
  exact ⟨head, acknowledged_of_told hsecond, hincarnation⟩

/-! ### Existence is never forgotten -/

/-- Once a head was visible, no existence read that starts later finds the lineage absent. -/
theorem head_never_forgotten (hw : Reach (lineageSystem X l B) w) {i k t : ℕ} {c : LineageCall} {res : c.Res}
    (hk : k ≤ t) (hv : l.slots.object (w.hist.storeAt k) ≠ none) (hd : w.hist.Done i t c res) : ¬ c.SaysAbsent res := by
  intro ha
  obtain ⟨hI, hret⟩ := returned hw
  exact hv (((hret i t c res hd).1.missed ha).never hI hk)

/-- A head that was destroyed is read as destroyed. -/
theorem head_never_forgotten_destroyThenCreate : ∃ i t res, (letterRun destroyThenCreate).hist.Done i t .readHeadState res ∧
    letterLineage.slots.object ((letterRun destroyThenCreate).hist.storeAt t) = none ∧ ¬ LineageCall.SaysAbsent .readHeadState res := by
  obtain ⟨hread, hv, hgone⟩ := destroyThenCreate_read
  have hd := done_of_stateRead hread
  exact ⟨17, 14, _, hd, hgone, head_never_forgotten (letterRun_reach _) (k := 7) (by decide) (Option.isSome_iff_ne_none.1 hv) hd⟩

/-! ### At rest -/

/-- Once every call has returned, a head that is there is of the open incarnation, if no destroy moved the counter
over an open head it had not seen, and the head's key is on the wire what it is. -/
theorem head_open_at_rest (hB : B.Sound) (hf : ¬ B.faults) (hkey : l.headKey = pathFrom l.headKey)
    (hw : Reach (lineageSystem X l B) w) (hrest : ∀ t, w.live t = none)
    (hfair : l.slots.BumpsFairly (lifetimes X l) w.hist) {o : Object} (ho : l.slots.object w.hist.store = some o) :
    (stampOf X o.data).toNat = l.slots.count w.hist.store := by
  obtain ⟨hI, hret⟩ := returned hw
  have hcalm : l.slots.Calm B := ⟨hf, hkey⟩
  have hdone : ∀ {i t r x}, w.hist.Asked i t r x → ∃ j c res, w.hist.Done j t c res := fun ha =>
    (hw.live_or_done ha).resolve_left fun ⟨th, hl⟩ => by
      rw [hrest] at hl
      cases hl
  refine Slots.open_at_rest hI hB hf hw.init_hist.2.1 (fun ℓ t d c y ha => ?_) (fun β t d c y ha => ?_) hfair ho
  · obtain ⟨j, c, res, hd⟩ := hdone ha
    exact (hret j t c res hd).1.settled hcalm
  · obtain ⟨j, c, res, hd⟩ := hdone ha
    exact (hret j t c res hd).1.closed hcalm

end YeetzS3.Lineage
