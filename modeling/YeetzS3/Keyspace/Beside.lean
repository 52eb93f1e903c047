import YeetzS3.Careful
import YeetzS3.Keyspace.Told
import YeetzS3.Keyspace.Isolation

/-!
# One key beside the others

The paths of a key are its control and its chunks, and two keys share none. What publishes at one key leaves the others as
they are: they are read as before (`seen_beside`), and no other key is listed that was not (`mem_keys_beside`).
-/

namespace YeetzS3.Keyspace

open Conc

/-! ### The paths of a key -/

/-- The control of a key, and the directory of its chunks. -/
def AtomicKeyspace.Own (K : AtomicKeyspace) (key : Str) : YeetzS3.Region := fun p =>
  p = K.root ++ key ∨ K.chunkRootPrefix ++ (hexEncode (Json.utf8 key) ++ ['/']) <+: p

/-- Two buckets that agree beside one key. -/
def AtomicKeyspace.Beside (K : AtomicKeyspace) (key : Str) (s t : Store) : Prop := Agree (fun p => ¬ K.Own key p) s t

section
variable {O : Outside} {K : AtomicKeyspace} {key key' : Str} {s t u : Store}

theorem validPath_hexEncode (hv : ValidPath key) : ValidPath (hexEncode (Json.utf8 key)) := by
  have hd : ∀ n < 16, (hexDigit n).isAlphanum = true := by decide
  have hall : ∀ c ∈ hexEncode (Json.utf8 key), c.isAlphanum = true := by
    intro c hc
    obtain ⟨b, -, hb⟩ := List.mem_flatMap.1 hc
    have hlt := b.toNat_lt
    rcases List.mem_cons.1 hb with rfl | hb
    · exact hd _ (by omega)
    · rw [List.mem_singleton.1 hb]
      exact hd _ (by omega)
  rw [ValidPath, List.splitOn_eq_singleton (slash_not_mem_hexEncode _), List.all_cons, List.all_nil, Bool.and_true]
  cases hk : hexEncode (Json.utf8 key) with
  | nil =>
    have hlen := hexEncode_length (Json.utf8 key)
    rw [hk, List.length_nil] at hlen
    have hnil : Json.utf8 key = Json.utf8 [] := List.length_eq_zero_iff.1 (by omega)
    exact absurd (Json.utf8_injective hnil ▸ hv) not_validPath_nil
  | cons c cs =>
    rw [hk] at hall
    simp only [validSegment, Bool.and_eq_true, List.all_eq_true, Bool.or_eq_true]
    exact ⟨hall c List.mem_cons_self, fun d hd => .inl (.inl (.inl (hall d (List.mem_cons_of_mem _ hd))))⟩

theorem own_control (hv : ValidPath key) : K.Own key (pathFrom (K.root ++ key)) :=
  .inl (pathFrom_of_valid (AtomicKeyspace.validPath_root_append hv))

theorem own_chunk (hv : ValidPath key) (i v : UInt64) (digest : Str) : K.Own key (pathFrom (chunkObjectKey K.ns key i v digest)) := by
  have hi : seqComponent i ≠ [] := fun h => by
    have := seqComponent_length i
    rw [h] at this
    cases this
  have hdir : ∀ q, K.chunkRootPrefix ++ (hexEncode (Json.utf8 key) ++ '/' :: q) =
      K.chunkDir ++ '/' :: hexEncode (Json.utf8 key) ++ ['/'] ++ q := by
    intro q
    rw [K.chunkRootPrefix_eq]
    generalize K.chunkDir = d
    simp
  have hpre : K.chunkRootPrefix ++ (hexEncode (Json.utf8 key) ++ ['/']) = K.chunkDir ++ '/' :: hexEncode (Json.utf8 key) ++ ['/'] := by
    rw [hdir [], List.append_nil]
  right
  rw [K.chunkObjectKey_root, hpre, hdir]
  refine prefix_pathFrom (validPath_append.2 ⟨K.validPath_chunkDir, validPath_hexEncode hv⟩) ?_
  rw [wireSegments_append, wireSegments_append, wireSegments_single hi (slash_not_mem_seqComponent i)]
  simp

/-- Keys share no path. -/
theorem own_apart (hne : key ≠ key') {p : Str} (h : K.Own key p) : ¬ K.Own key' p := by
  rintro (h' | h')
  · rcases h with h | h
    · exact hne (List.append_cancel_left (h.symm.trans h'))
    · exact root_ne_chunkRoot (K := K) (M := K) (h' ▸ List.prefix_append _ _) ((List.prefix_append _ _).trans h)
  · rcases h with h | h
    · exact root_ne_chunkRoot (K := K) (M := K) (h ▸ List.prefix_append _ _) ((List.prefix_append _ _).trans h')
    · have hcancel : ∀ {a b : Str}, '/' ∉ b → K.chunkRootPrefix ++ (a ++ ['/']) <+: K.chunkRootPrefix ++ (b ++ ['/']) → a = b := by
        intro a b hb h
        rcases inside_of_prefix (List.prefix_append_right_inj _ |>.1 h) with rfl | ⟨t, rfl⟩
        · rfl
        · exact absurd (List.mem_append_right a List.mem_cons_self) hb
      have hinj : hexEncode (Json.utf8 key) = hexEncode (Json.utf8 key') := by
        rcases List.prefix_or_prefix_of_prefix h h' with h | h
        · exact hcancel (slash_not_mem_hexEncode _) h
        · exact (hcancel (slash_not_mem_hexEncode _) h).symm
      have := congrArg hexDecode hinj
      rw [hexDecode_hexEncode, hexDecode_hexEncode] at this
      exact hne (Json.utf8_injective (Option.some.inj this))

/-- A key is one of its own paths alone. -/
theorem own_root {q : Str} : K.Own key (K.root ++ q) ↔ q = key := by
  constructor
  · rintro (h | h)
    · exact List.append_cancel_left h
    · exact absurd ((List.prefix_append _ _).trans h) (root_ne_chunkRoot (List.prefix_append _ _))
  · rintro rfl
    exact .inl rfl

namespace AtomicKeyspace

@[refl] theorem Beside.refl (s : Store) : K.Beside key s s := Agree.refl s

theorem Beside.trans (h : K.Beside key s t) (h' : K.Beside key t u) : K.Beside key s u := Agree.trans h h'

theorem Beside.own (h : K.Beside key s t) (hne : key' ≠ key) : Agree (K.Own key') s t := h.mono fun _ hp => own_apart hne hp

theorem Beside.lookup (h : K.Beside key s t) {q : Str} (hne : q ≠ key) : t.lookup (K.root ++ q) = s.lookup (K.root ++ q) :=
  h _ fun hq => hne (own_root.1 hq)

theorem Beside.mem_keys (h : K.Beside key s t) {q : Str} (hq : q ∈ K.keys t) : q = key ∨ q ∈ K.keys s := by
  by_cases hne : q = key
  · exact .inl hne
  · rw [mem_keys_iff_lookup, h.lookup hne] at hq
    exact .inr (mem_keys_iff_lookup.2 hq)

theorem Beside.length_keys (h : K.Beside key s t) : (K.keys t).length ≤ (K.keys s).length + 1 := by
  have hsub : K.keys t ⊆ key :: K.keys s := fun q hq => List.mem_cons.2 (h.mem_keys hq)
  exact ((nodup_keys (K := K) (s := t)).subperm hsub).length_le

end AtomicKeyspace

/-! ### What a publication leaves as it is -/

/-- What publishes at a key writes only there. -/
theorem within_own {sc : SpaceCall} {r : Req} (hs : sc.publishes = some key) (hw : sc.Writes O K r) : r.Within (K.Own key) := by
  cases hw with
  | @control _ k hc _ d cond =>
    obtain rfl := Option.some.inj (hs.symm.trans hc)
    exact own_control k.valid
  | @chunk _ k hc i v bytes =>
    obtain rfl := Option.some.inj (hs.symm.trans hc)
    exact own_chunk k.valid i v _
  | @evict _ k hc _ e =>
    obtain rfl := Option.some.inj (hs.symm.trans hc)
    exact .inl rfl
  | delete hc => cases sc <;> cases hs <;> cases hc
  | _ => cases hs

/-- The requests of a publication at `key`. -/
def AtomicKeyspace.Publishing (K : AtomicKeyspace) (O : Outside) (key : Str) (r : Req) : Prop :=
  K.Reads r ∨ ∃ sc : SpaceCall, sc.publishes = some key ∧ sc.Writes O K r

theorem AtomicKeyspace.Publishing.beside {B : Backend} {r : Req} {x : Resp r} (h : K.Publishing O key r) (hx : B.exec s r x t) :
    K.Beside key s t := by
  rcases h with h | ⟨sc, hs, hw⟩
  · cases h with
    | object | chunk => exact Backend.get_store hx ▸ .refl _
    | list => exact Backend.list_store hx ▸ .refl _
    | sizes => exact Backend.listSizes_store hx ▸ .refl _
  · exact (within_own hs hw).frame (fun _ hp hn => hn hp) hx

end

/-! ### Reads of a key -/

/-- The failure of a request that was not answered. -/
def Unserved (e : KeyspaceError) : Prop := ∃ operation, e = .unavailable operation

section
variable {O : Outside} {K : AtomicKeyspace} {key key' : Str} {s t : Store} {B : Backend}

/-- What a program that only reads returns depends on what it reads. -/
theorem answer_agree {α : Type} {p : Prog Req Resp α} {R : YeetzS3.Region} (hp : p.Every (fun r => ∃ path, r = .get path ∧ R (pathFrom path)) fun _ => True)
    (ha : Agree R s t) : p.answer t.answers = p.answer s.answers := by
  induction p with
  | ret a => rfl
  | call r k ih =>
    obtain ⟨⟨path, rfl, hR⟩, hk⟩ := hp
    have hx : t.answers (.get path) = s.answers (.get path) := ha.found hR
    rw [Prog.answer_call, Prog.answer_call, hx]
    exact ih _ (hk _)
  | stop => rfl

/-- A get of one of a key's own paths. -/
def AtomicKeyspace.Looks (K : AtomicKeyspace) (key : Str) (r : Req) : Prop := ∃ path, r = .get path ∧ K.Own key (pathFrom path)

theorem finite_check {α : Type} {x : Except KeyspaceError α} : (check x).run.Finite := by
  cases x <;> trivial

theorem careful_check {α : Type} {bad : KeyspaceError → Prop} {x : Except KeyspaceError α} : Careful bad B s (check x).run := by
  cases x <;> trivial

theorem finite_fetchAllChunks (i v : UInt64) (entries : List ManifestEntry) (ordinal : ℕ) :
    (fetchAllChunks O K key i v entries ordinal).run.Finite := by
  induction entries generalizing ordinal with
  | nil => trivial
  | cons entry entries ih =>
    refine Prog.finite_bindE (Prog.finite_ask_bind.2 ?_) fun bytes => Prog.finite_bindE (ih _) fun _ => trivial
    rintro ((_ | _ | _) | ⟨bytes, e⟩)
    any_goals trivial
    dsimp only
    split <;> trivial

theorem finite_collectValue (data : Bytes) : (collectValue O K key data).run.Finite := by
  refine Prog.finite_bindE finite_check ?_
  rintro (envelope | manifest)
  · trivial
  · exact finite_fetchAllChunks ..

theorem careful_fetchAllChunks (i v : UInt64) (entries : List ManifestEntry) (ordinal : ℕ) :
    Careful Unserved B s (fetchAllChunks O K key i v entries ordinal).run := by
  induction entries generalizing ordinal with
  | nil => trivial
  | cons entry entries ih =>
    refine careful_bindE (careful_get ⟨_, ⟨_, rfl⟩, rfl⟩ (fun _ _ _ => .inl rfl) ?_) fun bytes _ =>
      careful_bindE (ih _) fun _ _ => trivial
    unfold Store.found
    split
    · split <;> trivial
    · trivial
    · trivial

theorem careful_collectValue (data : Bytes) : Careful Unserved B s (collectValue O K key data).run := by
  refine careful_bindE careful_check ?_
  rintro (envelope | manifest) -
  · trivial
  · exact careful_fetchAllChunks ..

theorem looks_collectValue (hv : ValidPath key) (data : Bytes) : (collectValue O K key data).run.Every (K.Looks key) fun _ => True := by
  refine Prog.every_bind_trivial Key.every_check ?_
  rintro (envelope | manifest)
  · trivial
  have hfetch : ∀ entries ordinal, (fetchAllChunks O K key manifest.incarnation manifest.version entries ordinal).run.Every (K.Looks key)
      fun _ => True := by
    intro entries
    induction entries with
    | nil => exact fun _ => trivial
    | cons entry entries ih =>
      refine fun ordinal => Prog.every_bind_trivial (Op.every_ask_bind.2 ⟨⟨_, rfl, own_chunk hv ..⟩, ?_⟩) fun bytes =>
        Prog.every_bind_trivial (ih _) fun _ => trivial
      rintro ((_ | _ | _) | ⟨bytes, e⟩)
      any_goals trivial
      dsimp only
      split <;> trivial
  exact hfetch ..

theorem finite_get (key : Str) : (get O K key).run.Finite := by
  refine Prog.finite_bindE finite_check fun path => Prog.finite_ask_bind.2 ?_
  rintro ((_ | _ | _) | ⟨bytes, e⟩)
  any_goals trivial
  show (some <$> collectValue O K key bytes).run.Finite
  rw [map_eq_pure_bind]
  exact Prog.finite_bindE (finite_collectValue _) fun _ => trivial

theorem careful_get_key (key : Str) : Careful Unserved B s (get O K key).run := by
  refine careful_bindE careful_check fun path _ => careful_get ⟨_, ⟨_, rfl⟩, rfl⟩ (fun _ _ _ => .inl rfl) ?_
  unfold Store.found
  split
  · show Careful Unserved B s (some <$> collectValue O K key _).run
    rw [map_eq_pure_bind]
    exact careful_bindE (careful_collectValue _) fun _ _ => trivial
  · trivial
  · trivial

theorem looks_get (key : Str) : (get O K key).run.Every (K.Looks key) fun _ => True := by
  refine every_check_bind fun path hp => ?_
  obtain ⟨rfl, hv⟩ := AtomicKeyspace.objectKey_ok hp
  refine Op.every_ask_bind.2 ⟨⟨_, rfl, own_control hv⟩, ?_⟩
  rintro ((_ | _ | _) | ⟨bytes, e⟩)
  any_goals trivial
  show (some <$> collectValue O K key bytes).run.Every _ _
  rw [map_eq_pure_bind]
  exact Prog.every_bind_trivial (looks_collectValue hv _) fun _ => trivial

/-- What `get` returns when every request is answered. -/
def seen (O : Outside) (K : AtomicKeyspace) (s : Store) (key : Str) : Except KeyspaceError (Option Bytes) :=
  ((get O K key).run.answer s.answers).getD (.ok none)

theorem answer_get (key : Str) : (get O K key).run.answer s.answers = some (seen O K s key) := by
  have hsome : ∀ {α : Type} {p : Prog Req Resp α} (v : (r : Req) → Resp r), p.Finite → ∃ a, p.answer v = some a := by
    intro α p v hp
    induction p with
    | ret a => exact ⟨a, rfl⟩
    | call r k ih => exact ih _ (hp _)
    | stop => exact hp.elim
  obtain ⟨r, hr⟩ := hsome s.answers (finite_get (O := O) (K := K) key)
  rw [seen, hr, Option.getD_some]

theorem ends_get (key : Str) :
    (get O K key).run.Ends B.exec (fun r t => t = s ∧ InFull Unserved B (seen O K s key) r) s :=
  (careful_get_key key).ends (answer_get key)

/-- A run in which every request is answered. -/
theorem run_get (key : Str) : (get O K key).run.Runs B.exec s (seen O K s key) s := by
  have hrun : ∀ {α : Type} {p : Prog Req Resp α} {a : α}, p.Every (K.Looks key) (fun _ => True) → p.answer s.answers = some a →
      p.Runs B.exec s a s := by
    intro α p a hp ha
    induction p with
    | ret b =>
      cases ha
      exact .ret
    | call r k ih =>
      obtain ⟨⟨path, rfl, -⟩, hk⟩ := hp
      exact .call ⟨rfl, .inl rfl⟩ (ih _ (hk _) ha)
    | stop => cases ha
  exact hrun (looks_get key) (answer_get key)

theorem runs_get {r : Except KeyspaceError (Option Bytes)} (h : (get O K key).run.Runs B.exec s r t) :
    t = s ∧ InFull Unserved B (seen O K s key) r := (ends_get key).runs h

/-! ### What a get finds -/

/-- A key is an identifier of any kind. -/
theorem validate_of_objectKey {path : Str} (kind : String) (h : K.objectKey key = .ok path) : validateIdentifier kind key = .ok () := by
  unfold AtomicKeyspace.objectKey at h
  cases hv : validateIdentifier "key" key with
  | ok u => exact validate_ok.2 (validate_ok.1 hv)
  | error e =>
    rw [hv] at h
    cases h

theorem seen_none {path : Str} (hp : K.objectKey key = .ok path) (hn : s.lookup (K.root ++ key) = none) : seen O K s key = .ok none := by
  obtain ⟨rfl, hv⟩ := AtomicKeyspace.objectKey_ok hp
  have hx : s.answers (.get (K.root ++ key)) = .error .notFound := by
    rw [Store.answers, Store.serve, pathFrom_of_valid (AtomicKeyspace.validPath_root_append hv), Store.found, hn]
  have ha : (get O K key).run.answer s.answers = some (.ok none) := by
    rw [get, hp]
    show ((Op.ask (.get (K.root ++ key)) >>= _ : KeyOp (Option Bytes)).run).answer s.answers = _
    rw [Op.run_ask_bind, Prog.answer_call, hx]
    rfl
  rw [answer_get] at ha
  exact Option.some.inj ha

theorem seen_of_lookup {path : Str} {o : Object} (hp : K.objectKey key = .ok path) (ho : s.lookup (K.root ++ key) = some o) :
    some (seen O K s key) = ((some <$> collectValue O K key o.data : KeyOp (Option Bytes)).run).answer s.answers := by
  obtain ⟨rfl, hv⟩ := AtomicKeyspace.objectKey_ok hp
  have hx : s.answers (.get (K.root ++ key)) = .ok (o.data, some o.etag) := by
    rw [Store.answers, Store.serve, pathFrom_of_valid (AtomicKeyspace.validPath_root_append hv), Store.found, ho]
  rw [← answer_get, get, hp]
  show ((Op.ask (.get (K.root ++ key)) >>= _ : KeyOp (Option Bytes)).run).answer s.answers = _
  rw [Op.run_ask_bind, Prog.answer_call, hx]

/-- An inline value is read as it was written. -/
theorem seen_inline {path : Str} {o : Object} {e : ValueEnvelope} (hp : K.objectKey key = .ok path)
    (ho : s.lookup (K.root ++ key) = some o) (hd : o.data = e.encode) : seen O K s key = .ok (some e.payload) := by
  have hdec : ControlEnvelope.decode O key o.data = .ok (.inline e) := ControlEnvelope.decode_inline.2 hd
  have ha := seen_of_lookup (O := O) hp ho
  rw [collectValue, hdec] at ha
  exact Option.some.inj ha

theorem objectKey_of_seen {v : Option Bytes} (h : seen O K s key = .ok v) : K.objectKey key = .ok (K.root ++ key) := by
  cases hp : K.objectKey key with
  | ok path => rw [(AtomicKeyspace.objectKey_ok hp).1]
  | error e =>
    have ha := answer_get (O := O) (K := K) (s := s) key
    rw [h, get, hp] at ha
    cases ha

/-- A get says nothing is there exactly when nothing is. -/
theorem seen_eq_none {path : Str} (hp : K.objectKey key = .ok path) :
    seen O K s key = .ok none ↔ s.lookup (K.root ++ key) = none := by
  refine ⟨fun h => ?_, seen_none hp⟩
  cases ho : s.lookup (K.root ++ key) with
  | none => rfl
  | some o =>
    have ha := seen_of_lookup (O := O) hp ho
    rw [h, map_eq_pure_bind] at ha
    cases hc : (collectValue O K key o.data).run.answer s.answers with
    | none =>
      rw [ExceptT.run_bind, Prog.answer_bind, hc] at ha
      cases ha
    | some r =>
      cases r with
      | error e =>
        rw [Op.answer_bind_error hc] at ha
        cases ha
      | ok v =>
        rw [Op.answer_bind_of_ok hc] at ha
        cases ha

theorem lookup_of_seen {v : Bytes} (h : seen O K s key = .ok (some v)) : s.lookup (K.root ++ key) ≠ none := fun hn => by
  rw [seen_none (objectKey_of_seen h) hn] at h
  cases h

theorem seen_agree (ha : Agree (K.Own key) s t) : seen O K t key = seen O K s key := by
  rw [seen, seen, answer_agree (looks_get key) ha]

theorem seen_beside (hb : K.Beside key s t) (hne : key' ≠ key) : seen O K t key' = seen O K s key' := seen_agree (hb.own hne)

end

end YeetzS3.Keyspace
