import YeetzS3.Keyspace.Codec
import YeetzS3.Keyspace.Laws
import YeetzS3.Keyspace.Listing

/-!
# Namespaces apart

The paths of a keyspace are those under its two roots, and none of its operations reads or writes another. Two
namespaces share no path unless one is a directory of the other: then their keys do overlap, and what is done
through the one shows through the other. `isolated_iff` is the exact condition.
-/

namespace YeetzS3.Keyspace

open Conc

namespace AtomicKeyspace

variable (K : AtomicKeyspace)

/-! ### The paths of a keyspace -/

/-- The directory of the keyspace's chunks. -/
def chunkDir : Str := "keyspace-chunks".toList ++ '/' :: ("v1".toList ++ '/' :: K.ns)

/-- The paths of the keyspace. -/
def Region : YeetzS3.Region := fun p => K.root <+: p ∨ K.chunkRootPrefix <+: p

theorem chunkRootPrefix_eq : K.chunkRootPrefix = K.chunkDir ++ ['/'] := by
  have h : "keyspace-chunks/v1/".toList = "keyspace-chunks".toList ++ '/' :: ("v1".toList ++ ['/']) := by decide
  unfold chunkRootPrefix chunkDir
  rw [h]
  generalize "keyspace-chunks".toList = r
  generalize "v1".toList = v
  simp

theorem validPath_chunkDir : ValidPath K.chunkDir :=
  validPath_append.2 ⟨by decide, validPath_append.2 ⟨by decide, validPath_of_validate K.valid⟩⟩

end AtomicKeyspace

/-- A path in a directory stays in it on the wire. -/
theorem prefix_pathFrom {dir q : Str} (hd : ValidPath dir) (hq : wireSegments q ≠ []) :
    dir ++ ['/'] <+: pathFrom (dir ++ ['/'] ++ q) := by
  have h : dir ++ ['/'] ++ q = dir ++ '/' :: q := by simp
  rw [h, pathFrom_append (wireSegments_ne_nil hd) hq, pathFrom_of_valid hd]
  exact ⟨pathFrom q, by simp⟩

section
variable {O : Outside} {K : AtomicKeyspace} {c : SpaceCall} {r : Req}

theorem region_object {q : Str} (hq : wireSegments q ≠ []) : K.Region (pathFrom (K.root ++ q)) := by
  have h := prefix_pathFrom K.validPath_dir hq
  rw [← K.root_eq] at h
  exact .inl h

theorem region_verbatim (q : Str) : K.Region (K.root ++ q) := .inl (List.prefix_append _ _)

theorem region_chunkRoot {q : Str} (hq : wireSegments q ≠ []) : K.Region (pathFrom (K.chunkRootPrefix ++ q)) := by
  have h := prefix_pathFrom K.validPath_chunkDir hq
  rw [← K.chunkRootPrefix_eq] at h
  exact .inr h

theorem region_chunk (name : Str) (i v : UInt64) (digest : Str) :
    K.Region (pathFrom (chunkObjectKey K.ns name i v digest)) := by
  have hi : seqComponent i ≠ [] := fun h => by
    have := seqComponent_length i
    rw [h] at this
    cases this
  rw [K.chunkObjectKey_root]
  refine region_chunkRoot ?_
  rw [wireSegments_append, wireSegments_append, wireSegments_single hi (slash_not_mem_seqComponent i)]
  simp

theorem region_list {dir k : Str} (hd : ValidPath dir) (hk : (pathFrom (dir ++ ['/']) ++ ['/']).isPrefixOf k = true) :
    dir ++ ['/'] <+: k := by
  rw [pathFrom_dir hd] at hk
  exact List.isPrefixOf_iff_prefix.1 hk

theorem within_of_reads (h : K.Reads r) : r.Within K.Region := by
  cases h with
  | object hq => exact region_object hq
  | chunk name i v digest => exact region_chunk name i v digest
  | list after n =>
    intro k hk
    rw [K.root_eq] at hk
    have h := region_list K.validPath_dir hk
    rw [← K.root_eq] at h
    exact .inl h
  | sizes after n =>
    intro k hk
    rw [K.chunkRootPrefix_eq] at hk
    have h := region_list K.validPath_chunkDir hk
    rw [← K.chunkRootPrefix_eq] at h
    exact .inr h

theorem within_of_writes (h : c.Writes O K r) : r.Within K.Region := by
  have hkey : ∀ key : Key K, K.Region (pathFrom (K.root ++ key.name)) := fun key => region_object (wireSegments_ne_nil key.valid)
  cases h with
  | @control _ key _ _ d cond => exact hkey key
  | chunk _ i v bytes => exact region_chunk ..
  | evict _ _ e => exact region_verbatim _
  | tombstone d => exact region_object (wireSegments_mirror_ne_nil (by decide) (by decide))
  | counter d cond => exact region_object (wireSegments_mirror_ne_nil (by decide) (by decide))
  | remove e => exact region_verbatim _
  | @delete _ key _ _ => exact hkey key
  | deleteIf _ e => exact region_verbatim _
  | deleteObjects hk =>
    intro p hp
    obtain ⟨name, -, rfl⟩ := List.mem_map.1 hp
    exact region_verbatim _
  | certify _ hv => exact region_object (wireSegments_ne_nil hv)
  | sweep _ _ _ hv => exact region_object (wireSegments_ne_nil hv)
  | setFence commitId =>
    rw [AtomicKeyspace.fenceObjectKey, List.append_assoc]
    exact region_object (wireSegments_mirror_ne_nil (by decide) (by decide))
  | releaseFence e =>
    rw [AtomicKeyspace.fenceObjectKey, List.append_assoc]
    exact region_verbatim _
  | @sweepChunk path key hk =>
    unfold logicalKeyOf at hk
    split at hk
    swap
    · cases hk
    next p hp =>
    split at hk
    swap
    · cases hk
    next hns =>
    obtain ⟨rfl, -⟩ := chunkObjectKey_of_parse hp
    rw [hns]
    exact region_chunk ..

/-- No operation leaves the region of its keyspace. -/
theorem SpaceCall.within (c : SpaceCall) (fuel : ℕ) : (c.prog O K fuel).Every (·.Within K.Region) fun _ => True :=
  c.asks.mono fun _ h => h.elim within_of_reads within_of_writes

end

/-! ### Namespaces that share no path -/

/-- The namespace of `M` is a directory inside that of `K`. -/
def Inside (M K : AtomicKeyspace) : Prop := ∃ b, M.ns = K.ns ++ '/' :: b

section
variable {K M : AtomicKeyspace}

theorem inside_of_prefix {a b : Str} (h : a ++ ['/'] <+: b ++ ['/']) : a = b ∨ ∃ t, b = a ++ '/' :: t := by
  obtain ⟨t, ht⟩ := h
  rcases List.eq_nil_or_concat' t with rfl | ⟨t, c, rfl⟩
  · rw [List.append_nil] at ht
    exact .inl (List.append_cancel_right ht)
  · rw [← List.append_assoc] at ht
    have hb := (List.append_inj' ht rfl).1
    exact .inr ⟨t, by rw [← hb]; simp⟩

/-- Directories of one root that share a path are nested. -/
theorem inside_of_share {r p a b : Str} (ha : r ++ '/' :: (a ++ ['/']) <+: p) (hb : r ++ '/' :: (b ++ ['/']) <+: p) :
    a = b ∨ (∃ t, b = a ++ '/' :: t) ∨ ∃ t, a = b ++ '/' :: t := by
  have hcancel : ∀ {x y : Str}, r ++ '/' :: (x ++ ['/']) <+: r ++ '/' :: (y ++ ['/']) → x ++ ['/'] <+: y ++ ['/'] := by
    rintro x y ⟨t, ht⟩
    rw [List.append_assoc] at ht
    exact ⟨t, (List.cons.inj (List.append_cancel_left ht)).2⟩
  rcases List.prefix_or_prefix_of_prefix ha hb with h | h
  · rcases inside_of_prefix (hcancel h) with h | h
    · exact .inl h
    · exact .inr (.inl h)
  · rcases inside_of_prefix (hcancel h) with h | h
    · exact .inl h.symm
    · exact .inr (.inr h)

/-- The object and the chunk root share no path. -/
theorem root_ne_chunkRoot {p : Str} (h : K.root <+: p) : ¬ M.chunkRootPrefix <+: p := by
  rintro ⟨t, ht⟩
  obtain ⟨q, rfl⟩ := h
  obtain ⟨r, hr⟩ : ∃ r, K.root ++ q = "keyspace".toList ++ '/' :: r := ⟨_, AtomicKeyspace.root_append q⟩
  have hc : M.chunkRootPrefix ++ t = "keyspace-chunks".toList ++ '/' :: ("v1".toList ++ '/' :: (M.ns ++ '/' :: t)) := by
    refine (congrArg (· ++ t) M.chunkRootPrefix_eq).trans ?_
    unfold AtomicKeyspace.chunkDir
    generalize "keyspace-chunks".toList = a
    generalize "v1".toList = b
    simp
  rw [hc, hr] at ht
  have h8 : ("keyspace-chunks".toList ++ '/' :: ("v1".toList ++ '/' :: (M.ns ++ '/' :: t)))[8]? = some '-' := by
    rw [List.getElem?_append_left (by decide)]
    decide
  have h8' : ("keyspace".toList ++ '/' :: r)[8]? = some '/' := by
    rw [List.getElem?_append_right (by decide)]
    rfl
  rw [ht, h8'] at h8
  cases h8

theorem region_disjoint (hne : K.ns ≠ M.ns) (hKM : ¬ Inside K M) (hMK : ¬ Inside M K) (p : Str) (h : K.Region p) :
    ¬ M.Region p := by
  have hroot : ∀ {r : Str}, r ++ '/' :: (K.ns ++ ['/']) <+: p → r ++ '/' :: (M.ns ++ ['/']) <+: p → False := by
    intro r hk hm
    rcases inside_of_share hk hm with h | h | h
    · exact hne h
    · exact hMK h
    · exact hKM h
  have hchunk : ∀ K : AtomicKeyspace, K.chunkRootPrefix =
      ("keyspace-chunks".toList ++ '/' :: "v1".toList) ++ '/' :: (K.ns ++ ['/']) := by
    intro K
    refine K.chunkRootPrefix_eq.trans ?_
    unfold AtomicKeyspace.chunkDir
    generalize "keyspace-chunks".toList = a
    generalize "v1".toList = b
    simp
  rintro (hm | hm) <;> rcases h with hk | hk
  · exact hroot hk hm
  · exact root_ne_chunkRoot hm hk
  · exact root_ne_chunkRoot hk hm
  · rw [hchunk] at hk hm
    exact hroot hk hm

end

/-! ### What one namespace shows of another -/

/-- Whatever is done through a handle on `N`, every operation through a handle on `M` may answer what it might have
answered without it, and no key it lists was created through `N`. -/
def Isolated (O : Outside) (N M : AtomicKeyspace) : Prop :=
  ∀ (B : Backend) s s', Relation.ReflTransGen (Called O N B) s s' →
    (∀ fuel (c : SpaceCall) res, (∃ t, (c.prog O M fuel).Runs B.exec s' res t) ↔ ∃ t, (c.prog O M fuel).Runs B.exec s res t) ∧
    ∀ fuel after n keys t, ((SpaceCall.listAfter after n).prog O M fuel).Runs B.exec s' (.ok keys) t →
      ∀ key ∈ keys, s.lookup (M.root ++ key) ≠ none

section
variable {O : Outside} {N M K : AtomicKeyspace} {B : Backend} {s s' t : Store} {fuel : ℕ}

/-- A session through one handle leaves the paths of the other as they are. -/
theorem agree_of_called (hd : ∀ p, N.Region p → ¬ M.Region p) (h : Relation.ReflTransGen (Called O N B) s s') :
    Agree M.Region s s' := by
  induction h with
  | refl => exact .refl s
  | tail _ hc ih =>
    obtain ⟨fuel, c, res, hr⟩ := hc
    exact ih.trans (Prog.frame_of_within (c.within fuel) hd hr)

/-- What `list_after` returns is there. -/
theorem lookup_of_listAfter {after : Option Str} {n : ℕ} {keys : List Str}
    (h : ((SpaceCall.listAfter after n).prog O K fuel).Runs B.exec s (.ok keys) t) {key : Str} (hk : key ∈ keys) :
    s.lookup (K.root ++ key) ≠ none := by
  obtain ⟨-, hs, -⟩ := runs_listAfter h
  exact AtomicKeyspace.mem_keys_iff_lookup.1 (AtomicKeyspace.mem_keysAfter.1 (hs.subset hk)).1

theorem isolated_of_disjoint (hd : ∀ p, N.Region p → ¬ M.Region p) : Isolated O N M := by
  intro B s s' h
  have ha := agree_of_called hd h
  refine ⟨fun fuel c res => ⟨?_, ?_⟩, fun fuel after n keys t hr key hk => ?_⟩
  · rintro ⟨t, hr⟩
    obtain ⟨t', hr', -⟩ := Prog.agree_of_within (c.within fuel) ha.symm hr
    exact ⟨t', hr'⟩
  · rintro ⟨t, hr⟩
    obtain ⟨t', hr', -⟩ := Prog.agree_of_within (c.within fuel) ha hr
    exact ⟨t', hr'⟩
  · rw [← ha _ (region_verbatim key)]
    exact lookup_of_listAfter hr hk

/-! ### Nested namespaces -/

/-- One request to the honest backend. -/
theorem runs_ask_honest {ε α : Type} {r : Req} {f : Resp r → StoreOp ε α} {b : Except ε α}
    (h : (f (s.serve contentTag r).1).run.Runs Backend.honest.exec (s.serve contentTag r).2 b s') :
    (Op.ask r >>= f).run.Runs Backend.honest.exec s b s' := .call (Backend.exec_honest s r) h

theorem serve_get {p : Str} {o : Object} (h : s.lookup (pathFrom p) = some o) :
    s.serve contentTag (.get p) = (.ok (o.data, some o.etag), s) := by
  rw [Store.serve, Store.found, h]

theorem serve_get_none {p : Str} (h : s.lookup (pathFrom p) = none) :
    s.serve contentTag (.get p) = (.error .notFound, s) := by
  rw [Store.serve, Store.found, h]

theorem serve_put {p : Str} {d : Bytes} {c : Option Etag} (h : s.accepts (pathFrom p) c = true) :
    s.serve contentTag (.put p d c) = (.ok (some (contentTag d)), s.insert (pathFrom p) ⟨d, contentTag d⟩) := by
  rw [Store.serve, if_pos h]

theorem serve_deleteIf {p : Str} {e : Etag} (h : s.accepts p (some e) = true) :
    s.serve contentTag (.deleteIf p e) = (.ok (), s.erase p) := by
  rw [Store.serve, if_pos h]

/-- A destroy, alone on an honest backend, removes the control it reads. -/
theorem exists_runs_destroy (O : Outside) (key : Key K) (cause actor : Str) (ts : UInt64) {o : Object} {c : ControlEnvelope}
    (ho : s.lookup (K.root ++ key.name) = some o) (hd : ControlEnvelope.decode O key.name o.data = .ok c)
    (hc : s.lookup (K.root ++ incarnationKey key.name) = none) (ht : s.lookup (K.root ++ tombstoneKey key.name) = none) :
    ∃ s', (destroy O K key.name cause actor ts).run.Runs Backend.honest.exec s (.ok ()) s' ∧
      s'.lookup (K.root ++ key.name) = none := by
  have hct : K.root ++ incarnationKey key.name ≠ K.root ++ tombstoneKey key.name := fun h =>
    key.incarnationKey_ne_tombstoneKey (List.append_cancel_left h)
  have hnt : K.root ++ key.name ≠ K.root ++ tombstoneKey key.name := fun h =>
    key.name_ne_tombstoneKey (List.append_cancel_left h)
  have hnc : K.root ++ key.name ≠ K.root ++ incarnationKey key.name := fun h =>
    key.name_ne_incarnationKey (List.append_cancel_left h)
  have hread : (readControlEraWithEtag O K key.name).run.Runs Backend.honest.exec s
      (.ok (some (c.incarnation, c.version, o.etag))) s := by
    rw [readControlEraWithEtag, key.path]
    refine runs_ask_honest ?_
    rw [serve_get (by rwa [key.pathFrom_control])]
    dsimp only
    rw [hd]
    exact .ret
  let t := O.tombstoneJson (.mint c.incarnation c.version cause actor ts)
  let s₁ := s.insert (K.root ++ tombstoneKey key.name) ⟨t, contentTag t⟩
  let s₂ := s₁.insert (K.root ++ incarnationKey key.name) ⟨u64Bytes 1, contentTag (u64Bytes 1)⟩
  have hbump : (bumpIncarnation K key.name).run.Runs Backend.honest.exec s₁ (.ok 1) s₂ := by
    have hnone : s₁.lookup (K.root ++ incarnationKey key.name) = none := by
      rw [AList.lookup_insert_ne hct, hc]
    refine runs_ask_honest ?_
    rw [serve_get_none (by rwa [key.pathFrom_counter])]
    refine runs_ask_honest ?_
    rw [serve_put (by rwa [key.pathFrom_counter, Store.accepts_none]), key.pathFrom_counter]
    exact .ret
  have hprep : (prepareDestroy O K key.name cause actor ts).run.Runs Backend.honest.exec s
      (.ok (some (K.root ++ key.name, o.etag))) s₂ := by
    rw [prepareDestroy, key.path]
    refine Prog.runs_bindE.2 ⟨_, s, .ret, Prog.runs_bindE.2 ⟨_, _, hread, runs_ask_honest ?_⟩⟩
    rw [serve_put (by rwa [key.pathFrom_tombstone, Store.accepts_none]), key.pathFrom_tombstone]
    exact Prog.runs_bindE.2 ⟨_, _, hbump, .ret⟩
  have hlast : s₂.lookup (K.root ++ key.name) = some o := by
    rw [AList.lookup_insert_ne hnc, AList.lookup_insert_ne hnt, ho]
  refine ⟨s₂.erase (K.root ++ key.name), ?_, AList.lookup_erase _ _⟩
  refine Prog.runs_bindE.2 ⟨_, _, hprep, runs_ask_honest ?_⟩
  rw [serve_deleteIf (Store.accepts_some.2 ⟨o, hlast, rfl⟩)]
  exact .ret

/-- A valid name that does not end like the fence is a key. -/
theorem exists_key_of {name : Str} (hv : ValidPath name) (hl : byteLen name ≤ 255) (hk : name.getLast? = some 'k') :
    ∃ key : Key K, key.name = name := by
  refine @exists_key _ _ (K.root ++ name) ?_
  unfold AtomicKeyspace.objectKey
  rw [validate_ok.2 ⟨hl, hv⟩, Except.bind, if_neg]
  intro h
  obtain ⟨t, ht⟩ := List.isSuffixOf_iff_suffix.1 h
  have hlast := congrArg List.getLast? ht
  rw [List.getLast?_append, List.getLast?_append, hk, show "/fences/gc".toList.getLast? = some 'c' by decide,
    Option.some_or, Option.some_or] at hlast
  revert hlast
  decide

/-- A directory inside a namespace is a short valid path. -/
theorem inside_valid {b : Str} (h : M.ns = K.ns ++ '/' :: b) : ValidPath b ∧ byteLen b ≤ 253 := by
  obtain ⟨hl, hv⟩ := validate_ok.1 M.valid
  rw [h, byteLen_append, show '/' :: b = "/".toList ++ b by rfl, byteLen_append, show byteLen "/".toList = 1 by decide] at hl
  have hk : 0 < byteLen K.ns := byteLen_pos fun h0 => by
    have := validPath_of_validate K.valid
    rw [h0] at this
    exact not_validPath_nil this
  rw [h] at hv
  exact ⟨(validPath_append.1 hv).2, by omega⟩

theorem root_inside {b : Str} (h : M.ns = K.ns ++ '/' :: b) (q : Str) : M.root ++ q = K.root ++ (b ++ '/' :: q) := by
  rw [AtomicKeyspace.root_append, AtomicKeyspace.root_append, h]
  generalize "keyspace".toList = r
  simp

/-- What runs to two results on the honest backend has one. -/
theorem runs_honest_inj {α : Type} {p : Prog Req Resp α} {a a' : α} (h : p.Runs Backend.honest.exec s a t)
    (h' : p.Runs Backend.honest.exec s a' s') : a = a' := by
  have hserve : ∀ (s : Store) (r : Req) x s', Backend.honest.exec s r x s' → s.serve contentTag r = (x, s') :=
    fun _ _ _ _ => Backend.serve_of_honest
  have he := Prog.eval_of_runs hserve h
  rw [Prog.eval_of_runs hserve h'] at he
  exact (Option.some.inj (congrArg Prod.fst he)).symm

/-- What an outer namespace destroys is gone from the inner one. -/
theorem not_isolated_outer (h : Inside M N) : ¬ Isolated O N M := by
  obtain ⟨b, hb⟩ := h
  obtain ⟨hv, hl⟩ := inside_valid hb
  obtain ⟨inner, hinner⟩ := @exists_key_of M "k".toList (by decide) (by decide) (by decide)
  obtain ⟨key, hkey⟩ := @exists_key_of N (b ++ '/' :: "k".toList) (validPath_append.2 ⟨hv, by decide⟩)
    (by
      rw [byteLen_append, show byteLen ('/' :: "k".toList) = 2 by decide]
      omega)
    (by
      rw [List.getLast?_append]
      rfl)
  have hpath : M.root ++ inner.name = N.root ++ key.name := by
    rw [hkey, hinner]
    exact root_inside hb _
  let o : Object := ⟨(ValueEnvelope.mk 0 0 []).encode, contentTag (ValueEnvelope.mk 0 0 []).encode⟩
  let s : Store := AList.insert (N.root ++ key.name) o ∅
  have hnone : ∀ {q : Str}, key.name ≠ q → s.lookup (N.root ++ q) = none := fun hq => by
    rw [AList.lookup_insert_ne fun h => hq (List.append_cancel_left h).symm]
    rfl
  have hdecode : ∀ name, ControlEnvelope.decode O name o.data = .ok (.inline ⟨0, 0, []⟩) := fun name => by
    rw [ControlEnvelope.decode, not_isPrefixOf_envelope, if_neg Bool.false_ne_true, ValueEnvelope.decode_encode]
    rfl
  obtain ⟨s', hr, hgone⟩ := exists_runs_destroy O key [] [] 0 (AList.lookup_insert _) (hdecode _)
    (hnone key.name_ne_incarnationKey) (hnone key.name_ne_tombstoneKey)
  intro hi
  obtain ⟨hsame, -⟩ := hi .honest s s' (.single ⟨0, .destroy key.name [] [] 0, _, hr⟩)
  have hafter : (get O M inner.name).run.Runs Backend.honest.exec s' (.ok none) s' := by
    rw [get, inner.path]
    refine runs_ask_honest ?_
    rw [serve_get_none (by rwa [inner.pathFrom_control, hpath])]
    exact .ret
  have hbefore : (get O M inner.name).run.Runs Backend.honest.exec s (.ok (some [])) s := by
    rw [get, inner.path]
    refine runs_ask_honest ?_
    rw [serve_get (o := o) (by rw [inner.pathFrom_control, hpath, AList.lookup_insert])]
    dsimp only
    rw [collectValue, hdecode]
    exact .ret
  obtain ⟨t, ht⟩ := (hsame 0 (.get inner.name) (.ok none)).1 ⟨s', hafter⟩
  cases runs_honest_inj ht hbefore

/-- The fence of an inner namespace is a key the outer one lists. -/
theorem not_isolated_inner (h : Inside N M) : ¬ Isolated O N M := by
  obtain ⟨b, hb⟩ := h
  let d := (ValueEnvelope.mk 0 0 []).encode
  have hfence : N.fenceObjectKey = M.root ++ (b ++ '/' :: ("fences".toList ++ '/' :: "gc".toList)) := by
    rw [AtomicKeyspace.fenceObjectKey, List.append_assoc, root_inside hb]
  have hvalid : ValidPath (b ++ '/' :: ("fences".toList ++ '/' :: "gc".toList)) :=
    validPath_append.2 ⟨(inside_valid hb).1, by decide⟩
  have hpath : pathFrom N.fenceObjectKey = M.root ++ (b ++ '/' :: ("fences".toList ++ '/' :: "gc".toList)) := by
    rw [hfence, pathFrom_of_valid (AtomicKeyspace.validPath_root_append hvalid)]
  let s' : Store := AList.insert (pathFrom N.fenceObjectKey) ⟨d, contentTag d⟩ ∅
  have hr : (setMaintenanceFence N []).run.Runs Backend.honest.exec ∅ (.ok ()) s' := by
    refine runs_ask_honest ?_
    rw [serve_put (Store.accepts_none.2 rfl)]
    exact .ret
  intro hi
  obtain ⟨hsame, -⟩ := hi .honest ∅ s' (.single ⟨0, .setMaintenanceFence [], _, hr⟩)
  have hempty : (listAfter M none 1).run.Runs Backend.honest.exec ∅ (.ok []) ∅ := by
    rw [listAfter, if_neg Nat.one_ne_zero]
    exact runs_ask_honest .ret
  obtain ⟨t, ht⟩ := (hsame 0 (.listAfter none 1) (.ok [])).2 ⟨∅, hempty⟩
  obtain ⟨-, -, htake⟩ := runs_listAfter ht
  have hmem : b ++ '/' :: ("fences".toList ++ '/' :: "gc".toList) ∈ M.keysAfter s' none := by
    refine AtomicKeyspace.mem_keysAfter.2 ⟨AtomicKeyspace.mem_keys_iff_lookup.2 ?_, fun _ h => by cases h⟩
    rw [← hpath, AList.lookup_insert]
    exact Option.some_ne_none _
  obtain ⟨k, ks, hks⟩ := List.exists_cons_of_ne_nil (List.ne_nil_of_mem hmem)
  have := htake id
  rw [hks] at this
  cases this

/-- Distinct namespaces are isolated exactly when neither is a directory inside the other. -/
theorem isolated_iff (h : N.ns ≠ M.ns) : Isolated O N M ↔ ¬ Inside N M ∧ ¬ Inside M N := by
  constructor
  · exact fun hi => ⟨fun hin => not_isolated_inner hin hi, fun hin => not_isolated_outer hin hi⟩
  · rintro ⟨hNM, hMN⟩
    exact isolated_of_disjoint (region_disjoint h hNM hMN)

end

/-- A namespace of one letter. -/
def outerSpace : AtomicKeyspace := ⟨"a".toList, by decide⟩

/-- A namespace inside it. -/
def innerSpace : AtomicKeyspace := ⟨"a/b".toList, by decide⟩

theorem isolated_iff_letters : outerSpace.ns ≠ letterSpace.ns ∧ Isolated plain outerSpace letterSpace := by
  have hlen : ∀ {K M : AtomicKeyspace}, K.ns.length = 1 → M.ns.length = 1 → ¬ Inside K M := by
    rintro K M hK hM ⟨b, hb⟩
    have := congrArg List.length hb
    rw [List.length_append, List.length_cons, hK, hM] at this
    omega
  exact ⟨by decide, (isolated_iff (by decide)).2 ⟨hlen rfl rfl, hlen rfl rfl⟩⟩

theorem nested_namespaces : outerSpace.ns ≠ innerSpace.ns ∧ ¬ Isolated plain outerSpace innerSpace :=
  ⟨by decide, not_isolated_outer ⟨"b".toList, by decide⟩⟩

end YeetzS3.Keyspace
