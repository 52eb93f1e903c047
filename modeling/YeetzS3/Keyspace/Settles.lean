import YeetzS3.Keyspace.Beside

/-!
# Publications that end

A create and a compare-and-swap end however their requests are answered. Their only loop without a bound of its own is the
walk over the certificates at the root of the namespace, which comes to an end behind the last key there is, however much a
list leaves out.
-/

namespace YeetzS3.Keyspace

open Conc

variable {O : Outside} {K : AtomicKeyspace} {B : Backend} {s : Store} {after : Option Str} {fuel : ℕ}

/-! ### The walk over certificates -/

/-- Behind a key that is listed there are fewer keys. -/
theorem length_keysAfter_lt {key : Str} (h : key ∈ K.keysAfter s after) :
    (K.keysAfter s (some key)).length < (K.keysAfter s after).length := by
  have hsub : key :: K.keysAfter s (some key) ⊆ K.keysAfter s after := by
    intro k hk
    rcases List.mem_cons.1 hk with rfl | hk
    · exact h
    · obtain ⟨hmem, hlt⟩ := AtomicKeyspace.mem_keysAfter.1 hk
      exact AtomicKeyspace.mem_keysAfter.2 ⟨hmem, fun a ha => ((AtomicKeyspace.mem_keysAfter.1 h).2 a ha).trans (hlt key rfl)⟩
  have hnodup : (key :: K.keysAfter s (some key)).Nodup :=
    List.nodup_cons.2 ⟨fun hk => absurd ((AtomicKeyspace.mem_keysAfter.1 hk).2 key rfl) (lt_irrefl key),
      AtomicKeyspace.sorted_keysAfter.imp ne_of_lt⟩
  have := (hnodup.subperm hsub).length_le
  rwa [List.length_cons] at this

theorem finite_listAfter (after : Option Str) (n : ℕ) : (listAfter K after n).run.Finite := by
  unfold listAfter
  split
  · trivial
  refine Prog.finite_bindE finite_check fun _ => Prog.finite_ask_bind.2 ?_
  rintro (e | keys) <;> trivial

theorem ends_trimFloorLoop {pfx : Str} {floor : Option UInt64} (hfuel : (K.keysAfter s after).length < fuel) :
    (trimFloorLoop K pfx fuel after floor).run.Ends B.exec (fun _ t => t = s) s := by
  induction fuel generalizing after floor with
  | zero => exact absurd hfuel (Nat.not_lt_zero _)
  | succ fuel ih =>
    have hlist : (listAfter K after 1000).run.Ends B.exec (fun r t => t = s ∧ ∀ keys, r = .ok keys → keys.Sublist (K.keysAfter s after)) s := by
      refine (finite_listAfter after 1000).ends.of_runs fun r t hr => ⟨?_, ?_⟩
      · have hlooks := Key.every_listAfter (P := Req.Looks) (allowsReads_of (K := K) looks_of_reads) after 1000
        exact (hr.keep (J := (· = s)) hlooks (fun u q x u' hu hq hx => hu ▸ Backend.looks_store hq (.inl hx)) rfl).1
      · rintro keys rfl
        exact (runs_listAfter hr).2.1
    refine Prog.ends_bindE.2 (hlist.imp ?_)
    rintro (e | keys) t ⟨rfl, hkeys⟩
    · rfl
    have hsub := hkeys keys rfl
    dsimp only [Prog.OnOk]
    cases hp : floorPage pfx keys after floor with
    | inl final => rfl
    | inr r =>
      obtain ⟨last, soFar⟩ := r
      dsimp only
      split
      · rfl
      next hfull =>
      -- the walk goes on behind a key of the page
      obtain ⟨key, hkey⟩ : ∃ key, keys.getLast? = some key := by
        cases hl : keys.getLast? with
        | none =>
          rw [List.getLast?_eq_none_iff.1 hl] at hfull
          exact absurd (Nat.succ_pos _) hfull
        | some key => exact ⟨key, rfl⟩
      rw [floorPage_next hp, hkey, Option.some_or]
      have := length_keysAfter_lt (hsub.subset (List.mem_of_getLast? hkey))
      exact ih (by omega)

theorem settles_trimFloor {J : Store → Prop} (hlen : ∀ s, J s → (K.keys s).length < fuel) (scope : Str) :
    (trimFloor K fuel scope).run.Settles B.exec J := by
  refine Prog.settles_bindE ?_ fun pfx s hs => (ends_trimFloorLoop (keysAfter_length.trans_lt (hlen s hs))).imp fun _ t ht => ht ▸ hs
  cases trimCertPrefix scope <;> exact Prog.settles_ret

/-! ### The floor, or a failure -/

section
variable (ho : ¬ B.omits)
include ho

theorem careful_listAfter (after : Option Str) (n : ℕ) : Careful Unserved B s (listAfter K after n).run := by
  unfold listAfter
  split
  · trivial
  refine careful_bindE careful_check fun _ _ => careful_list ho ⟨_, ⟨_, rfl⟩, rfl⟩ ?_
  split <;> trivial

theorem careful_trimFloor (scope : Str) : Careful Unserved B s (trimFloor K fuel scope).run := by
  have hloop : ∀ pfx fuel after floor, Careful Unserved B s (trimFloorLoop K pfx fuel after floor).run := by
    intro pfx fuel
    induction fuel with
    | zero => exact fun _ _ => trivial
    | succ fuel ih =>
      refine fun after floor => careful_bindE (careful_listAfter ho _ _) fun keys _ => ?_
      split
      · trivial
      · split
        · trivial
        · exact ih _ _
  exact careful_bindE careful_check fun _ _ => hloop ..

theorem answered_trimFloor {scope certPrefix : Str} {t : Store} {r : Except KeyspaceError (Option UInt64)}
    (hs : trimCertPrefix scope = .ok certPrefix) (hfuel : (K.keys s).length < fuel) (h : (trimFloor K fuel scope).run.Runs B.exec s r t) :
    t = s ∧ ∃ res, (trimFloor K fuel scope).run.answer s.answers = some res ∧ FloorSays K s (floorStart scope) res ∧ InFull Unserved B res r := by
  obtain ⟨res, hres, htells⟩ := answer_trimFloor hs hfuel
  obtain ⟨rfl, hr⟩ := ((careful_trimFloor ho scope).ends hres).runs h
  exact ⟨rfl, res, hres, htells, hr⟩

end

/-! ### The floor in one page -/

theorem floorPage_within {pfx : Str} {keys : List Str} {floor : Option UInt64} {r : Option Str × Option UInt64}
    (h : floorPage pfx keys after floor = .inr r) : ∀ key ∈ keys, pfx <+: key ∨ key < pfx := by
  induction keys generalizing after floor with
  | nil => exact fun _ hk => absurd hk List.not_mem_nil
  | cons key keys ih =>
    intro k hk
    rw [floorPage] at h
    cases hs : stripPrefix pfx key with
    | some rest =>
      have hpre : pfx <+: key := ⟨rest, (stripPrefix_eq_some.1 hs).symm⟩
      rw [hs] at h
      dsimp only at h
      have htail : ∀ k ∈ keys, pfx <+: k ∨ k < pfx := by
        cases hp : parseSeqComponent rest with
        | some seq =>
          rw [hp] at h
          exact ih h
        | none =>
          rw [hp] at h
          exact ih h
      rcases List.mem_cons.1 hk with rfl | hk
      · exact .inl hpre
      · exact htail k hk
    | none =>
      rw [hs] at h
      dsimp only at h
      split at h
      · next hlt =>
        rcases List.mem_cons.1 hk with rfl | hk
        · exact .inr hlt
        · exact ih h k hk
      · cases h

/-- Where fewer keys begin like the certificates than a page holds, the walk ends in its first page. -/
theorem trimFloor_ok {scope certPrefix : Str} {e : KeyspaceError} (hs : trimCertPrefix scope = .ok certPrefix)
    (hstart : validateIdentifier "start_after" (floorStart scope) = .ok ())
    (hfew : ∀ keys : List Str, keys.Nodup → (∀ key ∈ keys, key ∈ K.keys s ∧ floorStart scope <+: key) → keys.length < 1000) :
    (trimFloor K fuel scope).run.answer s.answers ≠ some (.error e) := by
  have hprog : trimFloor K fuel scope = check (trimCertPrefix scope) >>= fun certPrefix =>
    trimFloorLoop K certPrefix fuel (some (floorStart scope)) none := rfl
  rw [hprog, hs]
  cases fuel with
  | zero => exact fun h => by cases h
  | succ fuel =>
    have hlist := @answer_listAfter K s (some (floorStart scope)) 1000 (by decide)
    rw [Option.elim_some, hstart] at hlist
    show (trimFloorLoop K certPrefix (fuel + 1) (some (floorStart scope)) none).run.answer s.answers ≠ _
    rw [trimFloorLoop, Op.answer_bind_of_ok hlist]
    generalize hkeys : (K.keysAfter s (some (floorStart scope))).take 1000 = keys
    cases hp : floorPage certPrefix keys (some (floorStart scope)) none with
    | inl final => exact fun h => by cases h
    | inr r =>
      have hlt : keys.length < 1000 := by
        refine hfew keys ?_ fun key hkey => ?_
        · rw [← hkeys]
          exact (AtomicKeyspace.sorted_keysAfter.imp ne_of_lt).sublist (List.take_sublist _ _)
        · have hmem : key ∈ K.keysAfter s (some (floorStart scope)) := by
            rw [← hkeys] at hkey
            exact List.mem_of_mem_take hkey
          obtain ⟨hin, hafter⟩ := AtomicKeyspace.mem_keysAfter.1 hmem
          have hdir := trimCertPrefix_eq hs
          refine ⟨hin, ?_⟩
          rcases floorPage_within hp key hkey with hpre | hlt
          · rw [hdir] at hpre
            exact (List.prefix_append _ _).trans hpre
          · rw [hdir] at hlt
            exact prefix_of_between (not_lt.2 (hafter _ rfl).le) hlt
      dsimp only
      rw [if_pos hlt]
      exact fun h => by cases h

/-! ### Parts that end by themselves -/

section
variable {key path : Str}

theorem finite_currentIncarnation (key : Str) : (currentIncarnation K key).run.Finite := by
  refine Prog.finite_ask_bind.2 ?_
  rintro ((_ | _ | _) | ⟨raw, e⟩)
  any_goals trivial
  dsimp only
  split <;> trivial

theorem finite_getWithEtag (key : Str) : (getWithEtag O K key).run.Finite := by
  refine Prog.finite_bindE finite_check fun path => Prog.finite_ask_bind.2 ?_
  rintro ((_ | _ | _) | ⟨bytes, _ | e⟩)
  any_goals trivial
  exact Prog.finite_bindE (finite_collectValue _) fun _ => trivial

theorem finite_evictStaleEra (i : UInt64) (encoded : Bytes) : (evictStaleEra K key path i encoded).run.Finite := by
  refine Prog.finite_bindE (finite_currentIncarnation _) fun n => ?_
  split
  · trivial
  refine Prog.finite_ask_bind.2 ?_
  rintro ((_ | _ | _) | ⟨data, _ | e⟩)
  any_goals trivial
  dsimp only
  split
  · refine Prog.finite_ask_bind.2 ?_
    rintro ((_ | _ | _) | u) <;> trivial
  · trivial

theorem finite_createInline (value : Bytes) (tries : ℕ) : (createInline K key path value tries).run.Finite := by
  induction tries with
  | zero => trivial
  | succ tries ih =>
    refine Prog.finite_bindE (finite_currentIncarnation _) fun n => Prog.finite_ask_bind.2 ?_
    rintro ((_ | _ | _) | y)
    any_goals trivial
    refine Prog.finite_bindE (finite_evictStaleEra _ _) ?_
    rintro (_ | _ | e)
    · trivial
    · exact ih
    · trivial

theorem finite_stageChunks (value : Bytes) (i v : UInt64) (commitId : Bytes) :
    (stageChunks O K key value i v commitId).run.Finite := by
  have hput : ∀ path entry ordinal bytes tries, (putChunk O path key entry ordinal bytes tries).run.Finite := by
    intro path entry ordinal bytes tries
    induction tries with
    | zero => trivial
    | succ tries ih =>
      refine Prog.finite_ask_bind.2 ?_
      rintro (e | y)
      · refine Prog.finite_attempt_bind (Prog.finite_ask_bind.2 ?_) ?_
        · rintro ((_ | _ | _) | ⟨bytes, e⟩)
          any_goals trivial
          dsimp only
          split <;> trivial
        · rintro (e | u)
          · cases e <;> first | exact ih | trivial
          · trivial
      · trivial
  have hputs : ∀ chunks ordinal, (putChunks O K key i v chunks ordinal).run.Finite := by
    intro chunks
    induction chunks with
    | nil => exact fun _ => trivial
    | cons bytes rest ih => exact fun ordinal => Prog.finite_bindE (hput ..) fun _ => ih _
  exact Prog.finite_bindE (hputs ..) fun _ => trivial

theorem finite_casConflict (expected : Etag) : (casConflict O K key expected).run.Finite := by
  unfold casConflict
  split
  · trivial
  refine Prog.finite_bindE (Prog.finite_ask_bind.2 ?_) fun _ => Prog.finite_bindE (Prog.finite_ask_bind.2 ?_) fun _ => trivial
  · rintro (e | ⟨bytes, e⟩) <;> trivial
  · rintro (e | ⟨bytes, e⟩)
    · trivial
    · dsimp only
      split <;> trivial

theorem finite_finishValueCas (i : UInt64) (e : Etag) : (finishValueCasAfterPublish K key i e).run.Finite := by
  refine Prog.finite_bindE (finite_currentIncarnation _) fun n => ?_
  split
  · trivial
  refine Prog.finite_bindE finite_check fun path => Prog.finite_ask_bind.2 ?_
  rintro ((_ | _ | _) | u) <;> trivial

theorem finite_ensureOpenValueEra (i : UInt64) : (ensureOpenValueEra K key i).run.Finite := by
  refine Prog.finite_bindE (finite_currentIncarnation _) fun n => ?_
  split <;> trivial

theorem finite_bindSuccessor (operation : String) (expected : Etag) : (bindSuccessor O K operation key path expected).run.Finite := by
  refine Prog.finite_ask_bind.2 ?_
  rintro ((_ | _ | _) | ⟨data, _ | e⟩)
  any_goals trivial
  dsimp only
  split
  · exact Prog.finite_bindE (finite_casConflict _) fun _ => trivial
  refine Prog.finite_bindE finite_check fun control => Prog.finite_bindE (finite_ensureOpenValueEra _) fun _ => ?_
  split <;> trivial

end

/-! ### Publications -/

section
variable {key : Key K} {J : Store → Prop} (hJ : ∀ s r x t, J s → K.Publishing O key.name r → B.exec s r x t → J t)
  (hlen : ∀ s, J s → (K.keys s).length < fuel) (ho : Open key.name)
include ho

theorem allowsWrites_publishing : key.AllowsWrites O (K.Publishing O key.name) where
  reads := allowsReads_of fun _ => .inl
  chunk i v bytes := .inr ⟨.create key.name [] fun _ => [], rfl, .chunk rfl i v bytes⟩
  control d cond := .inr ⟨.create key.name [] fun _ => [], rfl, .control rfl ho d cond⟩
  evict e := .inr ⟨.create key.name [] fun _ => [], rfl, .evict rfl ho e⟩

include hJ hlen

theorem settles_adjudicate (manifest : ValueManifest) :
    (adjudicateManifestPut O K fuel key.name key.slots.control manifest).run.Settles B.exec J := by
  have hP := allowsWrites_publishing (O := O) ho
  refine Prog.settles_bindE (Prog.settles_bindE (settles_trimFloor hlen _) fun _ => Prog.settles_ret) ?_
  rintro (_ | _)
  swap
  · exact Prog.settles_ret
  refine Prog.settles_ask_bind (fun s x t hs hx => hJ s _ x t hs hP.reads.control hx) ?_
  rintro ((_ | _ | _) | ⟨bytes, e⟩)
  any_goals exact Prog.settles_ret
  refine Prog.settles_bindE (finite_check.settles Key.every_check hJ) fun control => ?_
  split
  · split
    · split <;> exact Prog.settles_ret
    · exact Prog.settles_ret
  · exact Prog.settles_ret

theorem settles_publishCreate (manifest : ValueManifest) :
    (publishCreate O K fuel key.name key.slots.control manifest).run.Settles B.exec J := by
  have hP := allowsWrites_publishing (O := O) ho
  have hadj : ∀ f : Ambiguity → KeyOp Etag, (∀ a, (f a).run.Settles B.exec J) →
      (adjudicateManifestPut O K fuel key.name key.slots.control manifest >>= f).run.Settles B.exec J :=
    fun f hf => Prog.settles_bindE (settles_adjudicate hJ hlen ho _) hf
  refine Prog.settles_ask_bind (fun s x t hs hx => hJ s _ x t hs (hP.control _ _) hx) ?_
  rintro ((_ | _ | _) | _ | e)
  · refine hadj _ ?_
    rintro ((_ | e) | _ | _) <;> exact Prog.settles_ret
  · exact Prog.settles_ret
  · refine hadj _ ?_
    rintro ((_ | e) | _ | _) <;> exact Prog.settles_ret
  · exact Prog.settles_ret
  · exact Prog.settles_ret

theorem settles_createChunked (value : Bytes) (commitIds : ℕ → Bytes) (tries : ℕ) :
    (createChunked O K fuel key.name key.slots.control value commitIds tries).run.Settles B.exec J := by
  have hP := allowsWrites_publishing (O := O) ho
  induction tries with
  | zero => exact Prog.settles_ret
  | succ tries ih =>
    refine Prog.settles_bindE ((finite_currentIncarnation _).settles (Key.every_currentIncarnation hP.reads _) hJ) fun n => ?_
    refine Prog.settles_bindE ((finite_stageChunks ..).settles ((Key.every_stageChunks O hP.reads hP.chunk ..).imp fun _ _ => trivial) hJ)
      fun m => Prog.settles_bindE (settles_publishCreate hJ hlen ho m) fun _ => ?_
    refine Prog.settles_bindE ((finite_evictStaleEra _ _).settles (Key.every_evictStaleEra O hP _ _) hJ) ?_
    rintro (_ | _ | e)
    · exact Prog.settles_ret
    · exact ih
    · exact Prog.settles_ret

theorem settles_publishSuccessor (noEtag : String) (expected : Etag) (manifest : ValueManifest) :
    (publishSuccessor O K noEtag fuel key.name key.slots.control expected manifest).run.Settles B.exec J := by
  have hP := allowsWrites_publishing (O := O) ho
  have hcas : (do throw (← casConflict O K key.name expected) : KeyOp Etag).run.Settles B.exec J :=
    Prog.settles_bindE ((finite_casConflict _).settles (Key.every_casConflict O hP.reads _ _) hJ) fun _ => Prog.settles_ret
  have hfinish : ∀ i e, (finishValueCasAfterPublish K key.name i e).run.Settles B.exec J := fun i e =>
    (finite_finishValueCas i e).settles (Key.every_finishValueCas O hP i e) hJ
  have hadj : ∀ f : Ambiguity → KeyOp Etag, (∀ a, (f a).run.Settles B.exec J) →
      (adjudicateManifestPut O K fuel key.name key.slots.control manifest >>= f).run.Settles B.exec J :=
    fun f hf => Prog.settles_bindE (settles_adjudicate hJ hlen ho _) hf
  refine Prog.settles_bindE ((finite_ensureOpenValueEra _).settles (Key.every_ensureOpenValueEra O hP _) hJ) fun _ => ?_
  refine Prog.settles_ask_bind (fun s x t hs hx => hJ s _ x t hs (hP.control _ _) hx) ?_
  rintro ((_ | _ | _) | _ | e)
  · refine hadj _ ?_
    rintro ((_ | e) | _ | _)
    · exact Prog.settles_ret
    · exact hfinish _ _
    · exact hcas
    · exact Prog.settles_ret
  · exact hcas
  · refine hadj _ ?_
    rintro ((_ | e) | _ | _)
    · exact Prog.settles_ret
    · exact hfinish _ _
    · exact hcas
    · exact Prog.settles_ret
  · exact Prog.settles_ret
  · exact hfinish _ _

end

section
variable {key : Str} {J : Store → Prop} (hJ : ∀ s r x t, J s → K.Publishing O key r → B.exec s r x t → J t)
  (hlen : ∀ s, J s → (K.keys s).length < fuel)
include hJ hlen

/-- A create ends, and keeps what its requests keep. -/
theorem settles_create (value : Bytes) (ids : ℕ → Bytes) : (create O K fuel key value ids).run.Settles B.exec J := by
  unfold create
  cases ho : ensureNotReservedKey key with
  | error e => exact Prog.settles_ret
  | ok u =>
    refine Prog.settles_bindE Prog.settles_ret fun _ => ?_
    split
    · exact Prog.settles_ret
    cases hp : K.objectKey key with
    | error e => exact Prog.settles_ret
    | ok path =>
      obtain ⟨k, rfl⟩ := exists_key hp
      obtain ⟨rfl, -⟩ := AtomicKeyspace.objectKey_ok hp
      simp only [check, pure_bind]
      split
      · exact settles_createChunked hJ hlen ho value ids 8
      · exact (finite_createInline value 8).settles (Key.every_createInline O (allowsWrites_publishing ho) value 8) hJ

/-- A compare-and-swap ends, and keeps what its requests keep. -/
theorem settles_compareExchange (expected : Etag) (value commitId : Bytes) :
    (compareExchange O K fuel key expected value commitId).run.Settles B.exec J := by
  unfold compareExchange
  cases ho : ensureNotReservedKey key with
  | error e => exact Prog.settles_ret
  | ok u =>
    refine Prog.settles_bindE Prog.settles_ret fun _ => ?_
    split
    · exact Prog.settles_ret
    cases hp : K.objectKey key with
    | error e => exact Prog.settles_ret
    | ok path =>
      obtain ⟨k, rfl⟩ := exists_key hp
      obtain ⟨rfl, -⟩ := AtomicKeyspace.objectKey_ok hp
      have hP := allowsWrites_publishing (O := O) ho
      simp only [check, pure_bind]
      refine Prog.settles_bindE ((finite_bindSuccessor _ _).settles (Key.every_bindSuccessor O hP _ _) hJ) ?_
      rintro ⟨i, v⟩
      dsimp only
      split
      · refine Prog.settles_bindE ((finite_stageChunks ..).settles ((Key.every_stageChunks O hP.reads hP.chunk ..).imp fun _ _ => trivial) hJ)
          fun m => settles_publishSuccessor hJ hlen ho _ _ m
      · refine Prog.settles_ask_bind (fun s x t hs hx => hJ s _ x t hs (hP.control _ _) hx) ?_
        rintro ((_ | _ | _) | _ | e)
        any_goals exact Prog.settles_ret
        · exact Prog.settles_bindE ((finite_casConflict _).settles (Key.every_casConflict O hP.reads _ _) hJ) fun _ => Prog.settles_ret
        · exact (finite_finishValueCas i e).settles (Key.every_finishValueCas O hP i e) hJ

end

end YeetzS3.Keyspace
