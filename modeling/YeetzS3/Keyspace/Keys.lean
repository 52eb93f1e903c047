import YeetzS3.Keyspace.Control

/-!
# Keys of a keyspace

What a key of an `AtomicKeyspace` may look like, where its value, its tombstone, its incarnation counter
and the trim certificates of a scope live, and which keys the public writes and deletes refuse.
-/

namespace YeetzS3.Keyspace

/-- `str::len`: the bytes of the UTF-8 encoding. -/
def byteLen (s : Str) : ℕ := (s.map Char.utf8Size).sum

/-- One segment of an identifier: `[A-Za-z0-9][A-Za-z0-9._-]*`. -/
def validSegment : Str → Bool
  | [] => false
  | c :: cs => c.isAlphanum && cs.all fun b => b.isAlphanum || b = '-' || b = '_' || b = '.'

/-- `validate_identifier`. -/
def validateIdentifier (kind : String) (value : Str) : Except KeyspaceError Unit :=
  if value = [] ∨ byteLen value > 255 ∨ value.head? = some '/' ∨ value.getLast? = some '/' then
    .error (.invalidIdentifier kind value)
  else if (value.splitOn '/').all validSegment then .ok ()
  else .error (.invalidIdentifier kind value)

/-- `AtomicKeyspace`: the namespace was validated when the keyspace was opened. -/
structure AtomicKeyspace where
  ns : Str
  valid : validateIdentifier "namespace" ns = .ok ()

/-- `ensure_not_reserved_key`. -/
def ensureNotReservedKey (key : Str) : Except KeyspaceError Unit :=
  if "tombstones".toList.isPrefixOf key ∧ key.length > 10 then .error (.tombstoneImmutable key)
  else if "incarnations".toList.isPrefixOf key ∧ key.length > 12 then .error (.incarnationCounterImmutable key)
  else if "fences".toList.isPrefixOf key ∧ key.length > 6 then .error (.maintenanceFenceImmutable key)
  else if "trims".toList ∈ (key.splitOn '/').dropLast then .error (.trimCertificateImmutable key)
  else .ok ()

/-- `tombstone_key`. -/
def tombstoneKey (key : Str) : Str := "tombstones".toList ++ '/' :: key

/-- `incarnation_key`. -/
def incarnationKey (key : Str) : Str := "incarnations".toList ++ '/' :: key

/-- `str::strip_prefix`. -/
def stripPrefix (pfx key : Str) : Option Str := if pfx.isPrefixOf key then some (key.drop pfx.length) else none

/-- `trim_cert_prefix`: `{scope}/trims/`, or `trims/` at the root of the namespace. -/
def trimCertPrefix (scope : Str) : Except KeyspaceError Str :=
  if scope = [] then .ok ("trims".toList ++ ['/'])
  else (validateIdentifier "trim scope" scope).map fun _ => scope ++ '/' :: ("trims".toList ++ ['/'])

/-- `seq_retired_at_floor`: the floor, when the key's last segment is a sequence number below it. -/
def seqRetiredAtFloor (key : Str) (firstRetained : Option UInt64) : Option UInt64 :=
  match (key.splitOn '/').getLast?.bind parseSeqComponent, firstRetained with
  | some seq, some floor => if seq > 0 ∧ seq < floor then some floor else none
  | _, _ => none

namespace AtomicKeyspace

/-- `keyspace/{namespace}/`. -/
def root (K : AtomicKeyspace) : Str := "keyspace".toList ++ '/' :: (K.ns ++ ['/'])

/-- `object_key`. -/
def objectKey (K : AtomicKeyspace) (key : Str) : Except KeyspaceError Str :=
  (validateIdentifier "key" key).bind fun _ =>
    if "/fences/gc".toList.isSuffixOf (K.root ++ key) then .error (.maintenanceFenceImmutable key)
    else .ok (K.root ++ key)

/-- `fence_object_key`. -/
def fenceObjectKey (K : AtomicKeyspace) : Str := K.root ++ "fences".toList ++ '/' :: "gc".toList

end AtomicKeyspace

/-! ### Valid paths are themselves on the wire -/

/-- Every segment of the path is an identifier segment. -/
def ValidPath (path : Str) : Prop := (path.splitOn '/').all validSegment = true

instance (path : Str) : Decidable (ValidPath path) := inferInstanceAs (Decidable (_ = true))

theorem validPath_append {a b : Str} : ValidPath (a ++ '/' :: b) ↔ ValidPath a ∧ ValidPath b := by
  simp [ValidPath, List.splitOn_append_cons_self]

theorem validPath_of_validate {kind : String} {value : Str} (h : validateIdentifier kind value = .ok ()) :
    ValidPath value := by
  unfold validateIdentifier at h
  split at h
  · cases h
  · split at h
    · assumption
    · cases h

theorem byteLen_append (a b : Str) : byteLen (a ++ b) = byteLen a + byteLen b := by
  simp [byteLen]

theorem byteLen_pos {a : Str} (h : a ≠ []) : 0 < byteLen a := by
  obtain ⟨c, cs, rfl⟩ := List.exists_cons_of_ne_nil h
  have := c.utf8Size_pos
  simp only [byteLen, List.map_cons, List.sum_cons]
  omega

theorem not_validPath_nil : ¬ ValidPath [] := by decide

theorem validate_ok {kind : String} {value : Str} :
    validateIdentifier kind value = .ok () ↔ byteLen value ≤ 255 ∧ ValidPath value := by
  unfold validateIdentifier
  constructor
  · intro h
    split at h
    · cases h
    next hn =>
    split at h
    swap
    · cases h
    next hv =>
    push Not at hn
    exact ⟨hn.2.1, hv⟩
  · rintro ⟨hl, hv⟩
    have hnil : value ≠ [] := by
      rintro rfl
      exact not_validPath_nil hv
    have hhead : value.head? ≠ some '/' := fun h => by
      obtain ⟨r, rfl⟩ := List.head?_eq_some_iff.1 h
      exact not_validPath_nil (validPath_append (a := []).1 hv).1
    have hlast : value.getLast? ≠ some '/' := fun h => by
      obtain ⟨r, rfl⟩ := List.getLast?_eq_some_iff.1 h
      exact not_validPath_nil (validPath_append.1 hv).2
    rw [if_neg (by push Not; exact ⟨hnil, hl, hhead, hlast⟩)]
    exact if_pos hv

theorem validate_error {kind : String} {value : Str} {e : KeyspaceError} (h : validateIdentifier kind value = .error e) :
    e = .invalidIdentifier kind value := by
  unfold validateIdentifier at h
  split at h
  · exact (Except.error.inj h).symm
  · split at h
    · cases h
    · exact (Except.error.inj h).symm

theorem validSegment_chars {s : Str} (h : validSegment s = true) {c : Char} (hc : c ∈ s) :
    c.isAlphanum = true ∨ c = '-' ∨ c = '_' ∨ c = '.' := by
  cases s with
  | nil => cases hc
  | cons d ds =>
    simp only [validSegment, Bool.and_eq_true, List.all_eq_true, Bool.or_eq_true, decide_eq_true_eq] at h
    rcases List.mem_cons.1 hc with rfl | hc
    · exact .inl h.1
    · have := h.2 c hc
      tauto

/-- The characters of a valid segment need no escape. -/
theorem validSegment_plain {s : Str} (h : validSegment s = true) {c : Char} (hc : c ∈ s) : needsEscape c = false := by
  have hn : ∀ n < 128, (Char.ofNat n).isAlphanum = true → needsEscape (Char.ofNat n) = false := by decide +kernel
  rcases validSegment_chars h hc with ha | rfl | rfl | rfl
  · have hlt : c.toNat < 128 := by
      simp only [Char.isAlphanum, Char.isAlpha, Char.isUpper, Char.isLower, Char.isDigit, Bool.or_eq_true,
        Bool.and_eq_true, decide_eq_true_eq, UInt32.le_iff_toNat_le, ge_iff_le] at ha
      have hv : c.toNat = c.val.toNat := rfl
      have hs : 'Z'.val.toNat = 90 ∧ 'z'.val.toNat = 122 ∧ '9'.val.toNat = 57 := by decide
      omega
    have := hn c.toNat hlt
    rw [Char.ofNat_toNat] at this
    exact this ha
  all_goals decide

theorem encodeSegment_of_valid {s : Str} (h : validSegment s = true) : encodeSegment s = s := by
  have hd : s ≠ ".".toList ∧ s ≠ "..".toList := by
    constructor <;> (rintro rfl; revert h; decide)
  rw [encodeSegment, if_neg hd.1, if_neg hd.2]
  have he : ∀ c ∈ s, (if needsEscape c then (String.utf8EncodeChar c).flatMap percentByte else [c]) = [c] := by
    intro c hc
    rw [if_neg (by simp [validSegment_plain h hc])]
  rw [List.flatMap_congr he, List.flatMap_singleton']

theorem pathFrom_of_valid {path : Str} (h : ValidPath path) : pathFrom path = path := by
  have hv : ∀ s ∈ path.splitOn '/', validSegment s = true := by simpa [ValidPath] using h
  have hf : (path.splitOn '/').filter (· ≠ []) = path.splitOn '/' := by
    refine List.filter_eq_self.2 fun s hs => ?_
    have := hv s hs
    cases s with
    | nil => cases this
    | cons c cs => rfl
  have hm : (path.splitOn '/').map encodeSegment = path.splitOn '/' := by
    conv_rhs => rw [← List.map_id (path.splitOn '/')]
    exact List.map_congr_left fun s hs => encodeSegment_of_valid (hv s hs)
  rw [pathFrom, wireSegments, hf, hm, List.intercalate_splitOn]

/-- A valid path has a segment. -/
theorem wireSegments_ne_nil {path : Str} (h : ValidPath path) : wireSegments path ≠ [] := by
  intro hw
  have hp := pathFrom_of_valid h
  rw [pathFrom, hw] at hp
  rw [← hp] at h
  revert h
  decide

theorem wireSegments_cons {a b : Str} (ha : validSegment a = true) (hs : '/' ∉ a) :
    wireSegments (a ++ '/' :: b) = a :: wireSegments b := by
  have hne : a ≠ [] := by
    rintro rfl
    cases ha
  rw [wireSegments, List.splitOn_append_cons_self, List.splitOn_eq_singleton hs, List.singleton_append,
    List.filter_cons_of_pos (by simpa using hne), List.map_cons, encodeSegment_of_valid ha, wireSegments]

theorem wireSegments_mirror_ne_nil {a b : Str} (ha : validSegment a = true) (hs : '/' ∉ a) :
    wireSegments (a ++ '/' :: b) ≠ [] := by
  rw [wireSegments_cons ha hs]
  exact List.cons_ne_nil _ _

theorem pathFrom_cons {a b : Str} (ha : validSegment a = true) (hs : '/' ∉ a) :
    pathFrom (a ++ '/' :: b) = a ∨ ∃ r, pathFrom (a ++ '/' :: b) = a ++ '/' :: r := by
  rw [pathFrom, wireSegments_cons ha hs]
  cases wireSegments b with
  | nil => exact .inl (by simp [List.intercalate])
  | cons s ss => exact .inr ⟨['/'].intercalate (s :: ss), by simp [List.intercalate]⟩

theorem stripPrefix_eq_some {pfx key rest : Str} : stripPrefix pfx key = some rest ↔ key = pfx ++ rest := by
  unfold stripPrefix
  constructor
  · intro h
    split at h
    · next hp =>
      obtain ⟨t, rfl⟩ := List.isPrefixOf_iff_prefix.1 hp
      rw [List.drop_left] at h
      rw [Option.some.inj h]
    · cases h
  · rintro rfl
    rw [if_pos (List.isPrefixOf_iff_prefix.2 (List.prefix_append _ _)), List.drop_left]

theorem incarnationKey_length (key : Str) : (incarnationKey key).length = key.length + 13 := by
  unfold incarnationKey
  rw [List.length_append, List.length_cons, show "incarnations".toList.length = 12 by decide]
  omega

theorem tombstoneKey_length (key : Str) : (tombstoneKey key).length = key.length + 11 := by
  unfold tombstoneKey
  rw [List.length_append, List.length_cons, show "tombstones".toList.length = 10 by decide]
  omega

namespace AtomicKeyspace

variable {K : AtomicKeyspace}

theorem root_append (key : Str) : K.root ++ key = "keyspace".toList ++ '/' :: (K.ns ++ '/' :: key) := by
  unfold root
  generalize "keyspace".toList = r
  simp

theorem validPath_root_append {key : Str} (h : ValidPath key) : ValidPath (K.root ++ key) := by
  rw [root_append, validPath_append, validPath_append]
  exact ⟨by decide, validPath_of_validate K.valid, h⟩

theorem objectKey_ok {key path : Str} (h : K.objectKey key = .ok path) : path = K.root ++ key ∧ ValidPath key := by
  unfold objectKey at h
  cases hv : validateIdentifier "key" key with
  | error e => rw [hv] at h; cases h
  | ok u =>
    rw [hv, Except.bind] at h
    by_cases hf : "/fences/gc".toList.isSuffixOf (K.root ++ key) = true
    · rw [if_pos hf] at h
      cases h
    · rw [if_neg hf] at h
      exact ⟨(Except.ok.inj h).symm, validPath_of_validate hv⟩

end AtomicKeyspace

/-- Chunk objects are not under the keyspace root. -/
theorem pathFrom_chunk_ne (K : AtomicKeyspace) (ns name : Str) (incarnation version : UInt64) (digestHex p : Str) :
    pathFrom (chunkObjectKey ns name incarnation version digestHex) ≠ K.root ++ p := by
  have hc : ∃ b, chunkObjectKey ns name incarnation version digestHex = "keyspace-chunks".toList ++ '/' :: b := by
    refine ⟨"v1/".toList ++ ns ++ ['/'] ++ hexEncode (name.flatMap String.utf8EncodeChar) ++ ['/'] ++
      seqComponent incarnation ++ ['/'] ++ seqComponent version ++ ['/'] ++ digestHex, ?_⟩
    unfold chunkObjectKey
    rw [show "keyspace-chunks/v1/".toList = "keyspace-chunks".toList ++ '/' :: "v1/".toList by decide]
    generalize "keyspace-chunks".toList = r
    generalize "v1/".toList = v
    simp only [List.append_assoc, List.cons_append]
  have hr : ∃ q, K.root ++ p = "keyspace".toList ++ '/' :: q := ⟨_, AtomicKeyspace.root_append p⟩
  obtain ⟨b, hb⟩ := hc
  obtain ⟨q, hq⟩ := hr
  rw [hb, hq]
  have h8 : ∀ r : Str, ("keyspace-chunks".toList ++ r)[8]? = some '-' := fun r => by
    rw [List.getElem?_append_left (by decide)]
    decide
  have h8' : ("keyspace".toList ++ '/' :: q)[8]? = some '/' := by
    rw [List.getElem?_append_right (by decide)]
    rfl
  intro heq
  rcases pathFrom_cons (a := "keyspace-chunks".toList) (b := b) (by decide) (by decide) with h | ⟨r, h⟩
  · have := h8 []
    rw [List.append_nil, ← h, heq, h8'] at this
    cases this
  · have := h8 ('/' :: r)
    rw [← h, heq, h8'] at this
    cases this

end YeetzS3.Keyspace
