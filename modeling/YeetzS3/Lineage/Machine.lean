import YeetzS3.Lineage.Safety

/-!
# One lineage and its clients

The system of any number of clients that append to, destroy and read one lineage, request by request. `returned`
is what the safety of the single operations adds up to: in every reachable world the invariant holds, and every
call that has returned left behind what `Returned` says.
-/

namespace YeetzS3.Lineage

open Conc Slots

/-- The calls on one lineage. -/
inductive LineageCall where
  | appendGenesis (record : CanonicalRecord)
  | appendGenesisBatch (records : List CanonicalRecord)
  | appendSuccessor (record : CanonicalRecord) (expected : HeadRead)
  | appendSuccessorBatch (records : List CanonicalRecord) (expected : HeadRead)
  | destroy (cause actor : Str) (ts : UInt64)
  | readHead
  | readHeadState
  | publishRecord (record : CanonicalRecord)
  | publishCheckpoint (checkpoint : CanonicalCheckpoint)

namespace LineageCall

/-- What a call returns when it succeeds. -/
abbrev Val : LineageCall → Type
  | appendGenesis _ => HeadRead
  | appendGenesisBatch _ => HeadRead
  | appendSuccessor _ _ => HeadRead
  | appendSuccessorBatch _ _ => HeadRead
  | destroy _ _ _ => Unit
  | readHead => HeadRead
  | readHeadState => LineageHeadState
  | publishRecord _ => RecordDigest
  | publishCheckpoint _ => RecordDigest

/-- What a call returns. -/
abbrev Res (c : LineageCall) : Type := Except KernelError c.Val

/-- The program of a call. -/
def prog (X : Crates) (l : KernelLineage) : (c : LineageCall) → Prog Req Resp c.Res
  | appendGenesis record => (Lineage.appendGenesis X l record).run
  | appendGenesisBatch records => (Lineage.appendGenesisBatch X l records).run
  | appendSuccessor record expected => (Lineage.appendSuccessor X l record expected).run
  | appendSuccessorBatch records expected => (Lineage.appendSuccessorBatch X l records expected).run
  | destroy cause actor ts => (Lineage.destroy X l cause actor ts).run
  | readHead => (Lineage.readHead X l).run
  | readHeadState => (Lineage.readHeadState X l).run
  | publishRecord record => (Lineage.publishRecord X l record).run
  | publishCheckpoint checkpoint => (Lineage.publishCheckpoint X l checkpoint).run

/-- The head a call expects, if it is an append: none for a genesis. -/
def expects : LineageCall → Option (Option HeadRead)
  | appendGenesis _ | appendGenesisBatch _ => some none
  | appendSuccessor _ expected | appendSuccessorBatch _ expected => some (some expected)
  | destroy _ _ _ | readHead | readHeadState | publishRecord _ | publishCheckpoint _ => none

/-- The head a call that succeeded returned. -/
def obtains : (c : LineageCall) → c.Res → Option HeadRead
  | appendGenesis _, r | appendGenesisBatch _, r | appendSuccessor _ _, r | appendSuccessorBatch _ _, r => r.toOption
  | readHead, r => r.toOption
  | readHeadState, .ok (.present head) => some head
  | readHeadState, .ok .absent | readHeadState, .ok (.destroyed _) | readHeadState, .error _ => none
  | destroy _ _ _, _ | publishRecord _, _ | publishCheckpoint _, _ => none

/-- The call is an existence read that found the lineage never to have existed. -/
def SaysAbsent : (c : LineageCall) → c.Res → Prop
  | readHeadState, r => r = .ok .absent
  | _, _ => False

end LineageCall

variable (X : Crates) (l : KernelLineage) (B : Backend)

/-- The clients of one lineage, before anything was written at it. -/
def lineageSystem : System Store Req Resp LineageCall LineageCall.Res where
  prog := LineageCall.prog X l
  exec := B.exec
  init s := s.Tagged B ∧ l.slots.object s = none ∧ ¬ l.slots.Counted s

/-- Call `t` published `head` last, on the condition `c`, and found it in its open lifetime afterwards. -/
def Advanced (h : History LineageCall LineageCall.Res) (t : ℕ) (head : CanonicalHead) (c : Option Etag) : Prop :=
  ∃ ℓ b, l.slots.Published B (lifetimes X l) h t ℓ head.incarnation (head.canonicalBytes X) c ∧ ℓ < b ∧
    l.slots.ReadAt h t b head.incarnation

/-- What a call leaves behind when it returns. -/
structure Returned (t : ℕ) (c : LineageCall) (res : c.Res) (h : History LineageCall LineageCall.Res) : Prop where
  settled : l.slots.Calm B → l.slots.Settled (lifetimes X l) t h
  closed : l.slots.Calm B → l.slots.Closed t h
  advanced : ∀ expected, c.expects = some expected → ∀ head, c.obtains res = some head →
    Advanced X l B h t head.head (expected.map (·.etag))
  inherits : ∀ expected, c.expects = some (some expected) → ∀ head, c.obtains res = some head →
    head.head.incarnation = expected.head.incarnation
  begun : ∀ head, c.obtains res = some head → B.Sound → head.head.incarnation.toNat ≤ l.slots.count h.store
  missed : c.SaysAbsent res → l.slots.Missed h t

variable {X l B} {t : ℕ} {c : LineageCall} {res : c.Res} {h h' : History LineageCall LineageCall.Res}

/-- What a call left behind stays. -/
theorem Returned.wait (hr : Returned X l B t c res h) (hh : Rely (l.slots.Inv B (lifetimes X l)) t h h') :
    Returned X l B t c res h' where
  settled := Settled.steady.imp.wait _ _ hh hr.settled
  closed := Closed.steady.imp.wait _ _ hh hr.closed
  advanced expected he head ho :=
    let ⟨ℓ, b, hp, hb, hra⟩ := hr.advanced expected he head ho
    ⟨ℓ, b, Published.steady.wait _ _ hh hp, hb, hra.mono hh.le⟩
  inherits := hr.inherits
  begun head ho := begun_mono hh (hr.begun head ho)
  missed hm := (hr.missed hm).mono hh.le

/-! ### Every call is safe -/

theorem allowsAppend_noMove : AllowsAppend l l.slots.NoMove where
  get _ _ _ := nofun
  record d data d' c' h := (l.spare_objectKey d).2.1 (by rw [(Req.put.inj h).1])
  head d c d' c' h := l.slots.control_ne_counter (by rw [← (Req.put.inj h).1]; rfl)
  evict e _ _ := nofun

theorem allowsDestroy_noPublish : AllowsDestroy l l.slots.NoPublish where
  get _ _ _ := nofun
  tombstone d d' c' h := l.slots.control_ne_tombstone (by rw [← (Req.put.inj h).1]; rfl)
  counter d c d' c' h := l.slots.control_ne_counter (by rw [← (Req.put.inj h).1]; rfl)
  remove e _ _ := nofun

section
variable {Sys : System Store Req Resp LineageCall LineageCall.Res}

/-- An append leaves its publications settled and the counter where it is. -/
theorem safe_append {p : KernelOp HeadRead} {cond : Option Etag} {R : Except KernelError HeadRead → Prop}
    (hn : l.slots.NoBump t h) (hp : Safe Sys (l.slots.Inv B (lifetimes X l)) t p.run (Appended X l B t cond) h)
    (he : p.run.Every l.slots.NoMove R) :
    Safe Sys (l.slots.Inv B (lifetimes X l)) t p.run (fun r h' => (l.slots.Calm B → l.slots.Settled (lifetimes X l) t h') ∧
      (l.slots.Calm B → l.slots.Closed t h') ∧ (∀ a, r.toOption = some a → Advanced X l B h' t a.head cond) ∧
        (∀ a, r.toOption = some a → B.Sound → a.head.incarnation.toNat ≤ l.slots.count h'.store) ∧
        ∀ a, r.toOption = some a → R (.ok a)) h := by
  have hmoves := hp.frame (he.imp fun _ _ => trivial) (fun _ _ hr hn => hn.wait hr) (fun _ _ _ _ hr hn => NoBump.noMove hr hn) hn
  refine (hmoves.and_every he).imp ?_
  rintro r h' - hI' ⟨⟨⟨hs, ha⟩, hn'⟩, hR⟩
  have hok : ∀ a, r.toOption = some a → r = .ok a := fun a hr => by
    cases r <;> cases hr
    rfl
  refine ⟨hs, fun _ => hn'.closed, fun a hr => ha a (hok a hr), fun a hr hB => ?_, fun a hr => hok a hr ▸ hR⟩
  obtain ⟨ℓ, b, -, -, hra⟩ := ha a (hok a hr)
  exact hra.le_count hI' hB

/-- A read changes nothing. -/
theorem safe_read {α : Type} {p : KernelOp α} {Q : Except KernelError α → History LineageCall LineageCall.Res → Prop}
    (hn : l.slots.NoBump t h) (hs : l.slots.Settled (lifetimes X l) t h)
    (hp : Safe Sys (l.slots.Inv B (lifetimes X l)) t p.run Q h) (he : p.run.Every l.slots.Spares fun _ => True) :
    Safe Sys (l.slots.Inv B (lifetimes X l)) t p.run (fun r h' => Q r h' ∧
      (l.slots.Calm B → l.slots.Settled (lifetimes X l) t h') ∧ (l.slots.Calm B → l.slots.Closed t h')) h := by
  refine (safe_frame he (NoBump.steady.and Settled.steady) ⟨hn, hs⟩ hp).imp ?_
  rintro r h' - - ⟨hq, hn', hs'⟩
  exact ⟨hq, fun _ => hs', fun _ => hn'.closed⟩

/-- Every call is safe from its start on. -/
theorem safe_prog (hx : ∀ s r x s', Sys.exec s r x s' → B.exec s r x s') (c : LineageCall)
    (hI : l.slots.Inv B (lifetimes X l) h) (ht : t < h.now) (hfresh : ∀ i r x, ¬ h.Asked i t r x) :
    Safe Sys (l.slots.Inv B (lifetimes X l)) t (c.prog X l) (Returned X l B t c) h := by
  have hn : l.slots.NoBump t h := fun β d c y => hfresh β _ _
  have hs : l.slots.Settled (lifetimes X l) t h := fun ℓ d c y ha => absurd ha (hfresh ℓ _ _)
  have hspares : ∀ {α : Type} {p : KernelOp α}, p.run.Every l.slots.Spares (fun _ => True) →
      Safe Sys (l.slots.Inv B (lifetimes X l)) t p.run (fun _ _ => True ∧ True) h := fun he =>
    safe_spares (X := fun _ => True) hx he (.of_mono fun _ _ _ => id) trivial
  cases c with
  | appendGenesis record =>
    refine (safe_append hn (safe_appendGenesis hx record hI fun _ => hs) (every_appendGenesis X allowsAppend_noMove ..)).imp ?_
    rintro r h' - - ⟨hs', hc, ha, hb, -⟩
    exact ⟨hs', hc, fun _ he head ho => Option.some.inj he ▸ ha head ho, nofun, hb, False.elim⟩
  | appendGenesisBatch records =>
    refine (safe_append hn (safe_appendGenesisBatch hx records hI fun _ => hs) (every_appendGenesisBatch X allowsAppend_noMove ..)).imp ?_
    rintro r h' - - ⟨hs', hc, ha, hb, -⟩
    exact ⟨hs', hc, fun _ he head ho => Option.some.inj he ▸ ha head ho, nofun, hb, False.elim⟩
  | appendSuccessor record expected =>
    refine (safe_append hn (safe_appendSuccessor hx record expected hI fun _ => hs) (every_appendSuccessor X allowsAppend_noMove ..)).imp ?_
    rintro r h' - - ⟨hs', hc, ha, hb, hi⟩
    refine ⟨hs', hc, fun _ he head ho => Option.some.inj he ▸ ha head ho, ?_, hb, False.elim⟩
    rintro _ ⟨⟩ head ho
    exact hi head ho head rfl
  | appendSuccessorBatch records expected =>
    refine (safe_append hn (safe_appendSuccessorBatch hx records expected hI fun _ => hs) (every_appendSuccessorBatch X allowsAppend_noMove ..)).imp ?_
    rintro r h' - - ⟨hs', hc, ha, hb, hi⟩
    refine ⟨hs', hc, fun _ he head ho => Option.some.inj he ▸ ha head ho, ?_, hb, False.elim⟩
    rintro _ ⟨⟩ head ho
    exact hi head ho head rfl
  | destroy cause actor ts =>
    refine ((safe_destroy hx cause actor ts hfresh).frame (every_destroy X allowsDestroy_noPublish cause actor ts)
      (fun _ _ hr hs => Settled.steady.wait _ _ hr hs) (fun _ _ _ _ hr hs => Settled.noPublish hr hs) hs).imp ?_
    rintro r h' - - ⟨hc, hs'⟩
    exact ⟨fun _ => hs', hc, nofun, nofun, nofun, False.elim⟩
  | readHead =>
    refine (safe_read hn hs (safe_readHead hx) (every_readHead X allowsGet)).imp ?_
    rintro r h' - - ⟨hq, hs', hc⟩
    refine ⟨hs', hc, nofun, nofun, ?_, False.elim⟩
    intro head ho
    cases r <;> cases ho
    exact hq _ rfl
  | readHeadState =>
    refine (safe_read hn hs (safe_readHeadState hx ht) (every_readHeadState X allowsGet)).imp ?_
    rintro r h' - - ⟨⟨hm, hq⟩, hs', hc⟩
    refine ⟨hs', hc, nofun, nofun, ?_, hm⟩
    intro head ho
    match r, ho with
    | .ok (.present head), rfl => exact hq _ rfl
  | publishRecord record =>
    have he : (publishRecord X l record).run.Every l.slots.Spares fun _ => True :=
      (every_publishRecord X allowsGet (allowsRecord _ _)).imp fun _ _ => trivial
    refine (safe_read hn hs (hspares he) he).imp ?_
    rintro r h' - - ⟨-, hs', hc⟩
    exact ⟨hs', hc, nofun, nofun, nofun, False.elim⟩
  | publishCheckpoint checkpoint =>
    have he : (publishCheckpoint X l checkpoint).run.Every l.slots.Spares fun _ => True :=
      every_publishCheckpoint X allowsGet (l.spare_checkpointKey _)
    refine (safe_read hn hs (hspares he) he).imp ?_
    rintro r h' - - ⟨-, hs', hc⟩
    exact ⟨hs', hc, nofun, nofun, nofun, False.elim⟩

end

/-- In every reachable world the invariant holds, and what the returned calls left behind. -/
theorem returned {w : World Store Req Resp LineageCall LineageCall.Res} (hw : Reach (lineageSystem X l B) w) :
    l.slots.Inv B (lifetimes X l) w.hist ∧ ∀ i t c res, w.hist.Done i t c res →
      Returned X l B t c res w.hist ∧ ∀ head, c.obtains res = some head → B.Sound →
        head.head.incarnation.toNat ≤ l.slots.count (w.hist.storeAt i) := by
  have hinit : ∀ s, (lineageSystem X l B).init s →
      l.slots.Inv B (lifetimes X l) (.empty s : History LineageCall LineageCall.Res) := by
    rintro s ⟨ht, ho, hc⟩
    refine Kept.empty ⟨ht, fun o hco => absurd (by simp [Slots.Counted, hco]) hc, fun h => absurd h hc, fun _ v hv => ?_⟩
    rw [Slots.cell, ho] at hv
    cases hv
  have hstart : ∀ (h : History LineageCall LineageCall.Res) c, l.slots.Inv B (lifetimes X l) h →
      (∀ i e, h.At i e → e.label.caller ≠ some h.now) → l.slots.Inv B (lifetimes X l) (h.push (.start c) h.store) ∧
        Safe (lineageSystem X l B) (l.slots.Inv B (lifetimes X l)) h.now ((lineageSystem X l B).prog c)
          (Returned X l B h.now c) (h.push (.start c) h.store) := by
    intro h c hI hfresh
    have hI' := hI.start (fun _ => Goes.refl _) c
    refine ⟨hI', safe_prog (fun _ _ _ _ => id) c hI' (by simp) ?_⟩
    rintro i r x ⟨e, he, hl⟩
    rcases Hist.at_push.1 he with he | ⟨-, rfl⟩
    · exact hfresh i e he (by rw [hl]; rfl)
    · cases hl
  have hdone : ∀ (h : History LineageCall LineageCall.Res) t c res, l.slots.Inv B (lifetimes X l) h →
      Returned X l B t c res h → l.slots.Inv B (lifetimes X l) (h.push (.done t c res) h.store) :=
    fun h t c res hI _ => hI.done (fun _ => Goes.refl _) t c res
  obtain ⟨hI, -, hd⟩ := Reach.sound hinit hstart hdone hw
  refine ⟨hI, fun i t c res hres => ?_⟩
  obtain ⟨e, hi, he⟩ := hres
  obtain ⟨h, hr, rfl, hp⟩ := hd i e t c res hi he
  refine ⟨hp.wait hr, fun head ho hB => ?_⟩
  rw [← Hist.store_eq_storeAt hr.le]
  exact hp.begun head ho hB

end YeetzS3.Lineage
