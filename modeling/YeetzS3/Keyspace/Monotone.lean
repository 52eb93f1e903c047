import YeetzS3.Keyspace.Floor

/-!
# Floors over a session

A certificate is a key no direct write or delete accepts, so only two calls can remove one: a destroy of exactly its
key, and a sweep over the directory it lies in. In a session without such calls on a floor that is in force, no floor
regresses (`floors_never_regress`).
-/

namespace YeetzS3

open Conc

/-- The request may remove what is at `p`. -/
def Req.Removes (p : Str) : Req → Prop
  | .delete q => pathFrom q = p
  | .deleteIf q _ => q = p
  | .deleteObjects qs => p ∈ qs
  | .get _ | .put _ _ _ | .list _ _ _ | .listSizes _ _ _ => False

/-- Any other request leaves something there. -/
theorem Req.present_of_not_removes {B : Backend} {s s' : Store} {r : Req} {x : Resp r} {p : Str} (h : ¬ r.Removes p)
    (hx : B.exec s r x s') (hp : s.lookup p ≠ none) : s'.lookup p ≠ none := by
  have herase : ∀ {q}, q ≠ p → (AList.erase q s).lookup p ≠ none := fun hq => by
    rwa [AList.lookup_erase_ne (Ne.symm hq)]
  have hfold : ∀ (qs : List Str) (s : Store), p ∉ qs → s.lookup p ≠ none →
      (qs.foldl (fun s q => s.erase q) s).lookup p ≠ none := by
    intro qs
    induction qs with
    | nil => exact fun _ _ hs => hs
    | cons q qs ih =>
      intro s hq hs
      have hne : p ≠ q := by
        rintro rfl
        exact hq List.mem_cons_self
      refine ih _ (fun h => hq (List.mem_cons_of_mem _ h)) ?_
      rwa [AList.lookup_erase_ne hne]
  cases r with
  | get q => rwa [Backend.get_store hx]
  | put q d c =>
    obtain rfl | ⟨-, t, -, rfl⟩ := Backend.put_store hx
    · exact hp
    · by_cases hq : p = pathFrom q
      · rw [hq, AList.lookup_insert]
        exact Option.some_ne_none _
      · rwa [AList.lookup_insert_ne hq]
  | delete q =>
    obtain rfl | rfl := Backend.delete_store hx
    · exact hp
    · exact herase h
  | deleteIf q e =>
    obtain rfl | ⟨-, rfl⟩ := Backend.deleteIf_store hx
    · exact hp
    · exact herase h
  | deleteObjects qs =>
    obtain ⟨rfl, -⟩ | ⟨-, gone, hg, rfl⟩ := hx
    · exact hfold qs s h hp
    · exact hfold gone s (fun hm => h (hg hm)) hp
  | list pfx after n => rwa [Backend.list_store hx]
  | listSizes pfx after n => rwa [Backend.listSizes_store hx]

namespace Keyspace

variable {O : Outside} {K : AtomicKeyspace} {B : Backend} {s s' : Store} {scope certPrefix : Str}

/-! ### Certificates are reserved -/

theorem not_open_of_trims {key : Str} (h : "trims".toList ∈ (key.splitOn '/').dropLast) : ¬ Open key := by
  intro ho
  unfold Open ensureNotReservedKey at ho
  split at ho
  · cases ho
  split at ho
  · cases ho
  split at ho
  · cases ho
  · cases ho

/-- No direct write or delete accepts the key of a certificate. -/
theorem not_open_certificate (h : trimCertPrefix scope = .ok certPrefix) (seq : UInt64) :
    ¬ Open (certPrefix ++ seqComponent seq) := by
  have hdir : certPrefix = floorStart scope ++ ['/'] := trimCertPrefix_eq h
  have hkey : certPrefix ++ seqComponent seq = floorStart scope ++ '/' :: seqComponent seq := by
    rw [hdir, List.append_assoc, List.singleton_append]
  have htrims : "trims".toList ∈ (floorStart scope).splitOn '/' := by
    have hself : "trims".toList.splitOn '/' = ["trims".toList] := List.splitOn_eq_singleton (by decide)
    unfold floorStart
    split
    · rw [hself]
      exact List.mem_cons_self
    · rw [List.splitOn_append_cons_self, hself]
      exact List.mem_append_right _ List.mem_cons_self
  have hmem : "trims".toList ∈ ((certPrefix ++ seqComponent seq).splitOn '/').dropLast := by
    rw [hkey, List.splitOn_append_cons_self, List.splitOn_eq_singleton (slash_not_mem_seqComponent seq), List.dropLast_concat]
    exact htrims
  exact not_open_of_trims hmem

theorem certificate_ne_fence (seq : UInt64) : certPrefix ++ seqComponent seq ≠ "fences".toList ++ '/' :: "gc".toList := by
  intro h
  have hne : seqComponent seq ≠ [] := fun h0 => by
    have := seqComponent_length seq
    rw [h0] at this
    cases this
  have hlast := congrArg List.getLast? h
  rw [List.getLast?_append, List.getLast?_eq_some_getLast hne, Option.some_or,
    show ("fences".toList ++ '/' :: "gc".toList).getLast? = some 'c' by decide] at hlast
  have hdigit := List.all_eq_true.1 (decDigits_isDigit 20 seq.toNat) _ (List.getLast_mem hne)
  rw [Option.some.inj hlast] at hdigit
  revert hdigit
  decide

/-- The calls that may remove the reserved key `key`. -/
def SpaceCall.Takes (key : Str) : SpaceCall → Prop
  | destroy name _ _ _ => name = key
  | deleteBelow _ dataPrefix firstRetained => ∃ pfx ∈ sweptPrefixes dataPrefix, ∃ seq, 0 < seq ∧ seq < firstRetained ∧
      key = pfx ++ seqComponent seq
  | _ => False

/-- No other call removes a reserved key but the fence. -/
theorem SpaceCall.not_removes {c : SpaceCall} {key : Str} {r : Req} (ho : ¬ Open key)
    (hf : key ≠ "fences".toList ++ '/' :: "gc".toList) (hc : ¬ c.Takes key) (hr : c.Asks O K r) : ¬ r.Removes (K.root ++ key) := by
  intro h
  rcases hr with hr | hr
  · cases hr <;> exact h
  cases hr with
  | @control _ _ _ _ d cond => exact h
  | chunk _ i v bytes => exact h
  | @evict _ k _ hopen e => exact ho (List.append_cancel_left h ▸ hopen)
  | tombstone d => exact h
  | counter d cond => exact h
  | @remove k _ _ _ e => exact hc (List.append_cancel_left h)
  | @delete _ k _ hopen =>
    have h : pathFrom (K.root ++ k.name) = K.root ++ key := h
    rw [k.pathFrom_control] at h
    exact ho (List.append_cancel_left h ▸ hopen)
  | @deleteIf k hopen e => exact ho (List.append_cancel_left h ▸ hopen)
  | deleteObjects hk =>
    obtain ⟨name, hname, he⟩ := List.mem_map.1 h
    exact ho (List.append_cancel_left he ▸ (hk name hname).2.1)
  | certify _ hv => exact h
  | sweep hp h0 hlt hv =>
    have h : pathFrom _ = K.root ++ key := h
    rw [pathFrom_of_valid (AtomicKeyspace.validPath_root_append hv)] at h
    exact hc ⟨_, hp, _, h0, hlt, (List.append_cancel_left h).symm⟩
  | setFence commitId => exact h
  | releaseFence e =>
    have h : K.fenceObjectKey = K.root ++ key := h
    rw [AtomicKeyspace.fenceObjectKey, List.append_assoc] at h
    exact hf (List.append_cancel_left h).symm
  | @sweepChunk path name hk =>
    have h : pathFrom path = K.root ++ key := h
    unfold logicalKeyOf at hk
    split at hk
    swap
    · cases hk
    next hp =>
    obtain ⟨rfl, -⟩ := chunkObjectKey_of_parse hp
    exact pathFrom_chunk_ne _ _ _ _ _ _ _ h

/-! ### Sessions -/

/-- The call leaves the certificate of every floor in force. -/
def SpaceCall.SparesFloors (K : AtomicKeyspace) (s : Store) (c : SpaceCall) : Prop :=
  ∀ scope certPrefix floor, trimCertPrefix scope = .ok certPrefix → IsMax (K.Certified s certPrefix) (some floor) →
    ¬ c.Takes (certPrefix ++ seqComponent floor)

/-- One call that spares the floors, from call to return. -/
def Sparing (O : Outside) (K : AtomicKeyspace) (B : Backend) (s s' : Store) : Prop :=
  ∃ fuel c res, (SpaceCall.prog O K fuel c).Runs B.exec s res s' ∧ c.SparesFloors K s

/-- A call that spares them keeps the certificates of the floors. -/
theorem certified_of_sparing (h : Sparing O K B s s') {floor : UInt64} (hs : trimCertPrefix scope = .ok certPrefix)
    (hm : IsMax (K.Certified s certPrefix) (some floor)) : K.Certified s' certPrefix floor := by
  obtain ⟨fuel, c, res, hr, hc⟩ := h
  have hstep : ∀ s r x s', K.Certified s certPrefix floor → c.Asks O K r → B.exec s r x s' → K.Certified s' certPrefix floor :=
    fun s r x s' hp ha hx => Req.present_of_not_removes
      (SpaceCall.not_removes (not_open_certificate hs floor) (certificate_ne_fence floor) (hc _ _ _ hs hm) ha) hx hp
  exact (hr.keep c.asks hstep hm.1).1

/-- There is a largest number, if there is one. -/
theorem exists_isMax {P : UInt64 → Prop} {seq : UInt64} (h : P seq) : ∃ floor, IsMax P (some floor) ∧ seq ≤ floor := by
  classical
  let Q : ℕ → Prop := fun n => ∃ m, P m ∧ m.toNat = n
  have hseq : seq.toNat ≤ 2 ^ 64 := seq.toNat_lt.le
  obtain ⟨floor, hfloor, he⟩ : Q (Nat.findGreatest Q (2 ^ 64)) := Nat.findGreatest_spec hseq ⟨seq, h, rfl⟩
  have hmax : ∀ m, P m → m ≤ floor := fun m hm => by
    rw [UInt64.le_iff_toNat_le, he]
    exact Nat.le_findGreatest m.toNat_lt.le ⟨m, hm, rfl⟩
  exact ⟨floor, ⟨hfloor, hmax⟩, hmax seq h⟩

theorem floor_le_of_sparing (h : Relation.ReflTransGen (Sparing O K B) s s') {floor : UInt64}
    (hs : trimCertPrefix scope = .ok certPrefix) (hm : IsMax (K.Certified s certPrefix) (some floor)) :
    ∃ floor', IsMax (K.Certified s' certPrefix) (some floor') ∧ floor ≤ floor' := by
  induction h with
  | refl => exact ⟨floor, hm, UInt64.le_refl floor⟩
  | tail _ hc ih =>
    obtain ⟨f, hmf, hle⟩ := ih
    obtain ⟨f', hmf', hle'⟩ := exists_isMax (certified_of_sparing hc hs hmf)
    exact ⟨f', hmf', UInt64.le_trans hle hle'⟩

theorem trimCertPrefix_of_runs {R : Backend} {fuel : ℕ} {floor : Option UInt64} {t : Store}
    (hr : (trimFloor K fuel scope).run.Runs R.exec s (.ok floor) t) : ∃ certPrefix, trimCertPrefix scope = .ok certPrefix := by
  obtain ⟨certPrefix, u, hc, -⟩ := Prog.runs_bindE.1 hr
  cases hs : trimCertPrefix scope with
  | error e =>
    rw [hs] at hc
    cases (Prog.runs_ret.1 hc).1
  | ok certPrefix => exact ⟨certPrefix, rfl⟩

/-- On a backend that fails nothing and lists everything, `trim_floor` returns the largest certificate. -/
theorem isMax_of_runs {R : Backend} {fuel : ℕ} {floor : Option UInt64} {t : Store} (hf : ¬ R.faults) (ho : ¬ R.omits)
    (hs : trimCertPrefix scope = .ok certPrefix) (hfuel : (K.keys s).length < fuel)
    (hr : (trimFloor K fuel scope).run.Runs R.exec s (.ok floor) t) : IsMax (K.Certified s certPrefix) floor := by
  obtain ⟨res, hres, htells⟩ := answer_trimFloor hs hfuel
  have hdir : certPrefix = floorStart scope ++ ['/'] := trimCertPrefix_eq hs
  have ha := ((runs_iff_answer hf ho (Key.every_trimFloor (allowsReads_of looks_of_reads) ..)).1 hr).2
  rw [hres] at ha
  rw [Option.some.inj ha, FloorSays, ← hdir] at htells
  exact htells

/-- What `trim_floor` returns never regresses over a session of calls that spare the floors. -/
theorem floors_never_regress {R : Backend} {fuel : ℕ} {floor : UInt64} {answer : Option UInt64} {t t' : Store}
    (h : Relation.ReflTransGen (Sparing O K B) s s') (hf : ¬ R.faults) (ho : ¬ R.omits)
    (hfuel : (K.keys s).length < fuel) (hfuel' : (K.keys s').length < fuel)
    (hr : (trimFloor K fuel scope).run.Runs R.exec s (.ok (some floor)) t)
    (hr' : (trimFloor K fuel scope).run.Runs R.exec s' (.ok answer) t') : ∃ floor', answer = some floor' ∧ floor ≤ floor' := by
  obtain ⟨certPrefix, hs⟩ := trimCertPrefix_of_runs hr
  obtain ⟨floor', hm', hle⟩ := floor_le_of_sparing h hs (isMax_of_runs hf ho hs hfuel hr)
  exact ⟨floor', (isMax_of_runs hf ho hs hfuel' hr').unique hm', hle⟩

/-- The bucket after trims of the scope `s`. -/
def trimmedStore (floors : List UInt64) : Store :=
  (session plain letterSpace 9 (floors.map (.proposeTrim "s".toList)) ∅).getD ∅

theorem floors_never_regress_raised : ∃ s s' answer t t', Sparing plain letterSpace .honest s s' ∧
    (trimFloor letterSpace 9 "s".toList).run.Runs Backend.honest.exec s (.ok (some 5)) t ∧
    (trimFloor letterSpace 9 "s".toList).run.Runs Backend.honest.exec s' (.ok answer) t' ∧
    ∃ floor', answer = some floor' ∧ 5 ≤ floor' := by
  let c : SpaceCall := .proposeTrim "s".toList 7
  have hc : Sparing plain letterSpace .honest (trimmedStore [5]) _ :=
    ⟨9, c, .ok ⟨7, true⟩, runs_of_eval_fst (by decide +kernel), fun _ _ _ _ _ => id⟩
  have hr : (trimFloor letterSpace 9 "s".toList).run.Runs Backend.honest.exec (trimmedStore [5]) (.ok (some 5)) _ :=
    runs_of_eval_fst (by decide +kernel)
  have hr' : (trimFloor letterSpace 9 "s".toList).run.Runs Backend.honest.exec
      ((c.prog plain letterSpace 9).eval (Store.serve contentTag) (trimmedStore [5])).2 (.ok (some 7)) _ :=
    runs_of_eval_fst (by decide +kernel)
  exact ⟨_, _, _, _, _, hc, hr, hr', floors_never_regress (.single hc) id id (by decide +kernel) (by decide +kernel) hr hr'⟩

/-- A destroy of the floor's certificate makes the floor disappear. -/
theorem floor_destroyed : ∃ s s' t t', Relation.ReflTransGen (Called plain letterSpace .honest) ∅ s ∧
    (destroy plain letterSpace ("s/trims/".toList ++ seqComponent 5) [] [] 0).run.Runs Backend.honest.exec s (.ok ()) s' ∧
    (trimFloor letterSpace 9 "s".toList).run.Runs Backend.honest.exec s (.ok (some 5)) t ∧
    (trimFloor letterSpace 9 "s".toList).run.Runs Backend.honest.exec s' (.ok none) t' := by
  let p := (destroy plain letterSpace ("s/trims/".toList ++ seqComponent 5) [] [] 0).run
  obtain ⟨s, hs⟩ := Option.isSome_iff_exists.1 (show (session plain letterSpace 9 [.proposeTrim "s".toList 5] ∅).isSome = true by decide +kernel)
  have hstore : trimmedStore [5] = s := congrArg (·.getD ∅) hs
  have hd : p.Runs Backend.honest.exec (trimmedStore [5]) (.ok ()) (p.eval (Store.serve contentTag) (trimmedStore [5])).2 :=
    runs_of_eval_fst (by decide +kernel)
  have hr : (trimFloor letterSpace 9 "s".toList).run.Runs Backend.honest.exec (trimmedStore [5]) (.ok (some 5)) _ :=
    runs_of_eval_fst (by decide +kernel)
  have hr' : (trimFloor letterSpace 9 "s".toList).run.Runs Backend.honest.exec
      (p.eval (Store.serve contentTag) (trimmedStore [5])).2 (.ok none) _ :=
    runs_of_eval_fst (by decide +kernel)
  exact ⟨trimmedStore [5], _, _, _, hstore ▸ called_of_session hs, hd, hr, hr'⟩

end Keyspace

end YeetzS3
