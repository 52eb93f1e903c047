import YeetzS3.Keyspace.Laws
import YeetzS3.Keyspace.Placed
import YeetzS3.Lineage.Batches

/-!
# Destroys that fail on contention

A destroy moves the counter before it deletes, and deletes only what it had read. When another client replaces the
control in between, the counter has been moved over a control that stays: it is stamped with a lifetime that is
closed, and nothing can advance it any more. `stranded` is such a run; `open_after_contention` says that this is the
only way to get there, and `advanced_after_contention` that the next client to read the control is acknowledged otherwise.
-/

namespace YeetzS3

open Conc Slots

/-- The condition under which what is left at the end of a run can be advanced: every bump over an open control is made
by a destroy that read this very control, or a writer of it has yet to look at the counter. A lineage must also be
deleted under the key it is written under. -/
theorem open_after_contention {B : Backend} (hB : B.Sound) (hf : ¬ B.faults) :
    (∀ {O : Outside} {K : Keyspace.AtomicKeyspace} {fuel : ℕ} {key : Keyspace.Key K}
      {w : World Store Req Resp Keyspace.KeyCall Keyspace.KeyCall.Res}, Reach (Keyspace.keySystem O fuel key B) w →
      (∀ t, w.live t = none) → key.slots.BumpsFairly Keyspace.lifetimes w.hist →
      ∀ o, key.slots.object w.hist.store = some o →
        (Keyspace.stampOf o.data).incarnation.toNat = key.slots.count w.hist.store) ∧
    ∀ {X : Lineage.Crates} {l : Lineage.KernelLineage}
      {w : World Store Req Resp Lineage.LineageCall Lineage.LineageCall.Res}, Reach (Lineage.lineageSystem X l B) w →
      (∀ t, w.live t = none) → l.headKey = pathFrom l.headKey → l.slots.BumpsFairly (Lineage.lifetimes X l) w.hist →
      ∀ o, l.slots.object w.hist.store = some o →
        (Lineage.stampOf X o.data).toNat = l.slots.count w.hist.store :=
  ⟨fun hw hrest hfair _ ho => Keyspace.open_at_rest hB hf hw hrest hfair ho,
    fun hw hrest hkey hfair _ ho => Lineage.head_open_at_rest hB hf hkey hw hrest hfair ho⟩

/-- No call is under way in a world whose calls so far have all returned. -/
theorem at_rest {σ Req : Type} {Resp : Req → Type} {Call : Type} {Res : Call → Type} {S : System σ Req Resp Call Res}
    {w : World σ Req Resp Call Res} (hw : Reach S w) (h : ∀ t < w.hist.now, (w.live t).isNone) (t : ℕ) : w.live t = none := by
  cases hl : w.live t with
  | none => rfl
  | some th =>
    have hn := h t (hw.named.live t th hl)
    rw [hl] at hn
    cases hn

section
variable {Call : Type} {Res : Call → Type} {S : Slots} {L : Lifetimes Bytes} {h : History Call Res}
  {β ℓ t u : ℕ} {p : Str} {d : Bytes}

/-- The put that was answered at a step: whose it is, its path and what it put. -/
def putAt (h : History Call Res) (i : ℕ) : Option (ℕ × Str × Bytes) :=
  match h.steps[i]? with
  | some ⟨.ask t (.put p d _) (.ok _), _, _⟩ => some (t, p, d)
  | _ => none

theorem putAt_of_asked {c : Option Etag} {y : Option Etag} (ha : h.Asked β t (.put p d c) (.ok y)) : putAt h β = some (t, p, d) := by
  obtain ⟨⟨label, pre, post⟩, he, rfl⟩ := ha
  rw [putAt, show h.steps[β]? = _ from he]

theorem asked_of_putAt (hp : putAt h β = some (t, p, d)) : ∃ c y, h.Asked β t (.put p d c) (.ok y) := by
  unfold putAt at hp
  split at hp
  · next t' p' d' c y _ _ he =>
    cases hp
    exact ⟨c, y, _, he, rfl⟩
  · cases hp

/-- Call `u` put a control at `ℓ` that stands until the one bump of the run, at `β`, and has done nothing in between; in the end no
call is under way, a control is there, and the counter is at `n`. -/
def Overtaken (S : Slots) (w : World Store Req Resp Call Res) (β ℓ u n : ℕ) : Prop :=
  (∀ i < w.hist.now, (putAt w.hist i).any (·.2.1 = S.counter) → i = β) ∧
  ((putAt w.hist ℓ).map fun q => (q.1, q.2.1)) = some (u, S.control) ∧ ℓ < β ∧
  ((S.object (w.hist.storeAt β)).map (·.data)) = (putAt w.hist ℓ).map (·.2.2) ∧
  (∀ k ≤ β, ℓ < k → S.object (w.hist.storeAt k) = S.object (w.hist.storeAt β)) ∧
  (∀ k < β, ℓ < k → (w.hist.steps[k]?).bind (·.label.caller) ≠ some u) ∧
  (∀ t < w.hist.now, (w.live t).isNone) ∧ (S.object w.hist.store).isSome ∧ S.count w.hist.store = n

instance (S : Slots) (w : World Store Req Resp Call Res) (β ℓ u n : ℕ) : Decidable (Overtaken S w β ℓ u n) :=
  inferInstanceAs (Decidable (_ ∧ _ ∧ _ ∧ _ ∧ _ ∧ _ ∧ _ ∧ _ ∧ _))

/-- Such a bump is fair: the writer has yet to look at the counter. -/
theorem bumpsFairly_of_overtaken {w : World Store Req Resp Call Res} {n : ℕ} (hw : Overtaken S w β ℓ u n) : S.BumpsFairly L w.hist := by
  obtain ⟨hbump, hwriter, hℓ, hdata, hstands, hidle, -⟩ := hw
  obtain ⟨⟨u, p, d⟩, hput, hcontrol⟩ := Option.map_eq_some_iff.1 hwriter
  cases hcontrol
  rintro β' t d' c y ha o ho -
  obtain rfl : β' = β := hbump β' ha.lt (by rw [putAt_of_asked ha]; simp)
  rw [ho, hput] at hdata
  obtain rfl : o.data = d := Option.some.inj hdata
  obtain ⟨c', y', hasked⟩ := asked_of_putAt hput
  refine .inr ⟨ℓ, u, c', y', hℓ, hasked, fun k hk hkβ => (hstands k hkβ hk).trans ho, ?_⟩
  rintro k x hk hkβ ⟨e, he, hl⟩
  refine hidle k hkβ hk ?_
  rw [show w.hist.steps[k]? = _ from he, Option.bind_some, hl]
  rfl

end

/-- A destroy reads a value; another client replaces it and has yet to look at the counter; the destroy moves the counter, fails
to delete and returns; the other client sees the counter, evicts what it put and returns; then the value is created again. -/
def evictedUnderDestroy : List (Move Keyspace.KeyCall) :=
  .start (.create [1] fun _ => []) :: List.replicate 4 (.step 0) ++
    .start (.destroy [] [] 0) :: List.replicate 2 (.step 5) ++
    .start (.compareExchange (contentTag (Keyspace.ValueEnvelope.encode ⟨0, 0, [1]⟩)) [2] []) :: List.replicate 3 (.step 8) ++
    List.replicate 6 (.step 5) ++ List.replicate 3 (.step 8) ++ .start (.create [3] fun _ => []) :: List.replicate 4 (.step 21)

/-- The same on a lineage: a destroy, an append of a successor, and then a genesis. -/
def retiredUnderDestroy : List (Move Lineage.LineageCall) :=
  .start (.appendGenesis Lineage.letterGenesis) :: List.replicate 6 (.step 0) ++
    .start (.destroy [] [] 0) :: List.replicate 2 (.step 7) ++
    .start (.appendSuccessor Lineage.letterSuccessor Lineage.letterHead) :: List.replicate 5 (.step 10) ++
    List.replicate 5 (.step 7) ++ List.replicate 4 (.step 10) ++
    .start (.appendGenesis Lineage.letterGenesis) :: List.replicate 6 (.step 25)

set_option maxRecDepth 10000 in
theorem overtaken_evicted : Overtaken Keyspace.letterKey.slots (Keyspace.letterRun evictedUnderDestroy) 13 11 8 1 := by
  decide +kernel

set_option maxRecDepth 10000 in
theorem overtaken_retired : Overtaken Lineage.letterLineage.slots (Lineage.letterRun retiredUnderDestroy) 17 15 10 1 := by
  decide +kernel

/-- Where the destroys move the counter over what is about to be evicted, the value and the head that were acknowledged last
can be advanced. -/
theorem open_after_contention_evicted :
    (∃ o, Keyspace.letterKey.slots.object (Keyspace.letterRun evictedUnderDestroy).hist.store = some o ∧
      (Keyspace.stampOf o.data).incarnation.toNat = 1 ∧
      Keyspace.letterKey.slots.count (Keyspace.letterRun evictedUnderDestroy).hist.store = 1) ∧
    ∃ o, Lineage.letterLineage.slots.object (Lineage.letterRun retiredUnderDestroy).hist.store = some o ∧
      (Lineage.stampOf Lineage.Serde.crates o.data).toNat = 1 ∧
      Lineage.letterLineage.slots.count (Lineage.letterRun retiredUnderDestroy).hist.store = 1 := by
  have hkey := Keyspace.letterRun_reach evictedUnderDestroy
  have hlineage := Lineage.letterRun_reach retiredUnderDestroy
  obtain ⟨hk, hl⟩ := open_after_contention Backend.honest_sound id
  obtain ⟨-, -, -, -, -, -, hrest, hsome, hcount⟩ := overtaken_evicted
  obtain ⟨-, -, -, -, -, -, hrest', hsome', hcount'⟩ := overtaken_retired
  obtain ⟨o, ho⟩ := Option.isSome_iff_exists.1 hsome
  obtain ⟨o', ho'⟩ := Option.isSome_iff_exists.1 hsome'
  have hopen := hk hkey (at_rest hkey hrest) (bumpsFairly_of_overtaken overtaken_evicted) o ho
  have hopen' := hl hlineage (at_rest hlineage hrest') (by decide) (bumpsFairly_of_overtaken overtaken_retired) o' ho'
  exact ⟨⟨o, ho, hopen.trans hcount, hcount⟩, o', ho', hopen'.trans hcount', hcount'⟩

/-! ### What is open can be advanced -/

/-- The counter of a reachable state can be read. -/
theorem Slots.Ok.counter_read {S : Slots} {B : Backend} {L : Lifetimes Bytes} {s : Store} {n : UInt64} (hok : S.Ok B L s)
    (hn : n.toNat = S.count s) :
    (s.lookup (pathFrom S.counter) = none ∧ n = 0) ∨ ∃ o, s.lookup (pathFrom S.counter) = some o ∧ u64OfBytes o.data = some n := by
  cases ho : s.lookup (pathFrom S.counter) with
  | none =>
    rw [Slots.count_of_none ho] at hn
    exact .inl ⟨rfl, UInt64.toNat_inj.1 (hn.trans UInt64.toNat_zero.symm)⟩
  | some o =>
    obtain ⟨m, hm⟩ := hok.counter o ho
    rw [Slots.count_of_lookup ho hm, UInt64.toNat_inj] at hn
    exact .inr ⟨o, rfl, by rw [hm, u64OfBytes_u64Bytes, hn]⟩

section
variable {O : Outside} {K : Keyspace.AtomicKeyspace} {B : Backend} {s t : Store} {key : Keyspace.Key K} {fuel : ℕ} {value commitId : Bytes}

theorem Keyspace.counter_of_ok {L : Lifetimes Bytes} {n : UInt64} (hok : key.slots.Ok B L s) (hn : n.toNat = key.slots.count s) :
    K.counter s key.name = .ok n := by
  unfold Keyspace.AtomicKeyspace.counter
  obtain ⟨hnone, rfl⟩ | ⟨o, ho, hread⟩ := hok.counter_read hn
  · rw [show s.lookup (pathFrom (K.root ++ Keyspace.incarnationKey key.name)) = none from hnone]
  · rw [show s.lookup (pathFrom (K.root ++ Keyspace.incarnationKey key.name)) = some o from ho]
    dsimp only
    rw [hread]

theorem Keyspace.currentIncarnation_runs {name : Str} {n : UInt64} (hn : K.counter s name = .ok n) :
    (Keyspace.currentIncarnation K name).run.Runs B.exec s (.ok n) s :=
  runs_of_answer (Keyspace.Key.every_currentIncarnation (Keyspace.allowsReads_of Keyspace.looks_of_reads) name)
    (Keyspace.answer_currentIncarnation.trans (congrArg some hn))

/-- A value of the open lifetime is replaced by a client that has its etag, as long as its version is not the last. -/
theorem Keyspace.compareExchange_runs (htags : ∀ d, ∃ e, B.tags d e) {o : Object} {control : Keyspace.ControlEnvelope}
    (ho : key.slots.object s = some o) (hread : Keyspace.ControlEnvelope.decode O key.name o.data = .ok control)
    (hcount : K.counter s key.name = .ok control.incarnation) (hversion : control.version.toNat + 1 < 2 ^ 64)
    (hopen : Keyspace.Open key.name) (hshort : value.length ≤ Keyspace.inlineMax) :
    ∃ e t, (Keyspace.compareExchange O K fuel key.name o.etag value commitId).run.Runs B.exec s (.ok e) t := by
  have hv := (Keyspace.AtomicKeyspace.objectKey_ok key.path).2
  have hpath : pathFrom (K.root ++ key.name) = K.root ++ key.name := key.pathFrom_control
  have hmax : ¬ value.length > Keyspace.maxLogicalBytes := by
    have : Keyspace.inlineMax ≤ Keyspace.maxLogicalBytes := by decide
    omega
  obtain ⟨e, he⟩ := htags (Keyspace.ValueEnvelope.mk control.incarnation (control.version + 1) value).encode
  have hnext : checkedSucc control.version = some (control.version + 1) := if_pos hversion
  have hfound : s.found (pathFrom (K.root ++ key.name)) = .ok (o.data, some o.etag) := by
    rw [Store.found, show s.lookup (pathFrom (K.root ++ key.name)) = some o from ho]
  have haccepts : s.accepts (pathFrom (K.root ++ key.name)) (some o.etag) = true := Store.accepts_some.2 ⟨o, ho, rfl⟩
  refine ⟨e, s.insert (K.root ++ key.name) ⟨(Keyspace.ValueEnvelope.mk control.incarnation (control.version + 1) value).encode, e⟩, ?_⟩
  unfold Keyspace.compareExchange
  rw [show Keyspace.ensureNotReservedKey key.name = .ok () from hopen, key.path, if_neg hmax]
  have hbind : (Keyspace.bindSuccessor O K "keyspace compare_exchange read" key.name (K.root ++ key.name) o.etag).run.Runs B.exec s
      (.ok (control.incarnation, control.version + 1)) s := by
    unfold Keyspace.bindSuccessor download
    rw [Op.run_ask_bind, Prog.runs_call]
    refine ⟨_, s, ⟨rfl, .inl hfound.symm⟩, ?_⟩
    dsimp only
    rw [if_neg (not_not.2 rfl), hread]
    refine Prog.runs_bindE.2 ⟨control, s, .ret, Prog.runs_bindE.2 ⟨(), s, ?_, ?_⟩⟩
    · refine Prog.runs_bindE.2 ⟨_, s, Keyspace.currentIncarnation_runs hcount, ?_⟩
      rw [if_pos rfl]
      exact .ret
    · rw [hnext]
      exact .ret
  refine Prog.runs_bindE.2 ⟨(), s, .ret, Prog.runs_bindE.2 ⟨K.root ++ key.name, s, .ret, Prog.runs_bindE.2 ⟨_, s, hbind, ?_⟩⟩⟩
  dsimp only
  rw [if_neg (by omega)]
  unfold Keyspace.compareExchangeInline uploadConditional
  rw [Op.run_ask_bind, Prog.runs_call]
  refine ⟨.ok (some e), _, .inl ⟨haccepts, e, he, by rw [hpath], .inl rfl⟩, ?_⟩
  refine Prog.runs_bindE.2 ⟨_, _, Keyspace.currentIncarnation_runs ((Keyspace.counter_insert hv).trans hcount), ?_⟩
  rw [if_pos rfl]
  exact .ret

end

section
variable {X : Lineage.Crates} {l : Lineage.KernelLineage} {B : Backend} {s : Store}

theorem Lineage.counterIs_of_ok {L : Lifetimes Bytes} {n : UInt64} (hok : l.slots.Ok B L s) (hn : n.toNat = l.slots.count s) :
    Lineage.CounterIs l s n := by
  unfold Lineage.CounterIs
  obtain ⟨hnone, rfl⟩ | ⟨o, ho, hread⟩ := hok.counter_read hn
  · rw [show s.lookup (pathFrom l.incarnationKey) = none from hnone]
  · rw [show s.lookup (pathFrom l.incarnationKey) = some o from ho]
    exact hread

theorem Lineage.readHead_runs {head : Lineage.HeadRead} {t : Store} (hf : ¬ B.faults)
    (h : (Lineage.readHead X l).run.Runs B.exec s (.ok head) t) :
    ∃ o, l.slots.object s = some o ∧ Lineage.CanonicalHead.fromBytes X l o.data = .ok head.head ∧ o.etag = head.etag := by
  obtain ⟨⟨loaded, etag⟩, u, hload, hrun⟩ := Prog.runs_bindE.1 h
  obtain ⟨rfl, o, ho, hh, rfl⟩ := (Lineage.loadHead_runs hf).1 hload
  obtain ⟨e, v, hneed, hrun⟩ := Prog.runs_bindE.1 hrun
  obtain ⟨hok, rfl⟩ := Prog.runs_ret.1 hneed
  cases hok
  obtain ⟨hok, rfl⟩ := Prog.runs_ret.1 hrun
  cases hok
  exact ⟨o, ho, hh, rfl⟩

end

/-- What is left at the end of such a run can be advanced: a client that reads it and goes on alone is acknowledged. -/
theorem advanced_after_contention {B : Backend} (hB : B.Sound) (hf : ¬ B.faults) (htags : ∀ d, ∃ e, B.tags d e) :
    (∀ {O : Outside} {K : Keyspace.AtomicKeyspace} {fuel : ℕ} {key : Keyspace.Key K}
      {w : World Store Req Resp Keyspace.KeyCall Keyspace.KeyCall.Res}, Reach (Keyspace.keySystem O fuel key B) w →
      (∀ t, w.live t = none) → key.slots.BumpsFairly Keyspace.lifetimes w.hist → Keyspace.Open key.name →
      ∀ o control, key.slots.object w.hist.store = some o → Keyspace.ControlEnvelope.decode O key.name o.data = .ok control →
        control.version.toNat + 1 < 2 ^ 64 → ∀ value commitId, value.length ≤ Keyspace.inlineMax →
          ∃ e t, (Keyspace.compareExchange O K fuel key.name o.etag value commitId).run.Runs B.exec w.hist.store (.ok e) t) ∧
    ∀ {X : Lineage.Crates} {l : Lineage.KernelLineage}
      {w : World Store Req Resp Lineage.LineageCall Lineage.LineageCall.Res}, Reach (Lineage.lineageSystem X l B) w →
      (∀ t, w.live t = none) → l.headKey = pathFrom l.headKey → l.slots.BumpsFairly (Lineage.lifetimes X l) w.hist →
      l.policy ≠ .genesisOnly → ∀ expected t, (Lineage.readHead X l).run.Runs B.exec w.hist.store (.ok expected) t →
        ∀ r : Lineage.CanonicalRecord, l.sameIdentity r.lineage = true → r.sequence.toNat = expected.head.generation.toNat + 1 →
          r.prior = some expected.head.position →
          (∀ o, w.hist.store.lookup (Lineage.recordPath X l r) = some o → o.data = r.canonicalBytes X) →
          ∃ a t, (Lineage.appendSuccessor X l r expected).run.Runs B.exec w.hist.store (.ok a) t := by
  constructor
  · intro O K fuel key w hw hrest hfair hopen o control ho hread hversion value commitId hshort
    have hcount := Keyspace.open_at_rest hB hf hw hrest hfair ho
    rw [Keyspace.stampOf_of_decode hread] at hcount
    exact Keyspace.compareExchange_runs htags ho hread (Keyspace.counter_of_ok (Keyspace.returned hw).1.state hcount) hversion hopen hshort
  · intro X l w hw hrest hkey hfair hpolicy expected t hreadHead r hl hseq hprior hfree
    obtain ⟨o, ho, hhead, hetag⟩ := Lineage.readHead_runs hf hreadHead
    have hcount := Lineage.head_open_at_rest hB hf hkey hw hrest hfair ho
    rw [Lineage.stampOf_fromBytes hhead] at hcount
    have hcurrent : Lineage.Current X l w.hist.store expected := by
      refine ⟨hpolicy, ?_, Lineage.counterIs_of_ok (Lineage.returned hw).1.state hcount, o, expected.head, ho, hhead, ?_, hetag⟩
      · simp [(Lineage.CanonicalHead.bytes_of_fromBytes hhead).1, Lineage.KernelLineage.sameIdentity]
      · simp [Lineage.CanonicalHead.sameIdentity, Lineage.KernelLineage.sameIdentity]
    obtain ⟨u, hput⟩ := Lineage.exists_publishes htags hfree
    obtain ⟨e, he⟩ := htags ((Lineage.headAfter X l expected.head r).canonicalBytes X)
    exact ⟨⟨_, e⟩, _, (Lineage.appendSuccessor_runs hf).2 ⟨hcurrent, hl, hseq, hprior, u, hput, rfl, he, rfl⟩⟩

/-! ### A run that strands a value -/

/-- A value is created; a destroy reads it; another client replaces it and is told so; the destroy goes on and fails. -/
def replacedUnderDestroy : List (Move Keyspace.KeyCall) :=
  .start (.create [1] fun _ => []) :: List.replicate 4 (.step 0) ++
    .start (.destroy [] [] 0) :: List.replicate 2 (.step 5) ++
    .start (.compareExchange (contentTag (Keyspace.ValueEnvelope.encode ⟨0, 0, [1]⟩)) [2] []) :: List.replicate 5 (.step 8) ++
    List.replicate 6 (.step 5)

set_option maxRecDepth 10000 in
/-- Every call has returned, and the value that is there is of a closed incarnation. -/
theorem stranded : ∃ w, Reach (Keyspace.keySystem Keyspace.plain 1 Keyspace.letterKey .honest) w ∧ (∀ t, w.live t = none) ∧
    ∃ o, Keyspace.letterKey.slots.object w.hist.store = some o ∧
      (Keyspace.stampOf o.data).incarnation.toNat ≠ Keyspace.letterKey.slots.count w.hist.store := by
  have hw := Keyspace.letterRun_reach replacedUnderDestroy
  have hobj : ((Keyspace.letterKey.slots.object (Keyspace.letterRun replacedUnderDestroy).hist.store).any fun o =>
      (Keyspace.stampOf o.data).incarnation.toNat ≠
        Keyspace.letterKey.slots.count (Keyspace.letterRun replacedUnderDestroy).hist.store) = true := by decide +kernel
  obtain ⟨o, ho, hne⟩ := Option.any_eq_true _ _ |>.1 hobj
  refine ⟨_, hw, at_rest hw (by decide +kernel), o, ho, by simpa using hne⟩

end YeetzS3
