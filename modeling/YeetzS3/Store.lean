import YeetzS3.Text
import YeetzS3.Conc.Rely

/-!
# The object store

The requests the kernel makes of its `ObjectStoreClient` and what an S3 backend may answer. `download`,
`upload_conditional`, `delete` and `list_prefix_after` name their key through `object_store::Path::from`
(`pathFrom`); `delete_conditional` and `delete_objects` put the key on the wire as it is. A `Backend`
says which etags it may give an object and whether its requests may fail and its lists may omit keys.
-/

namespace YeetzS3

/-- An entity tag, quotes removed. -/
abbrev Etag := Str

/-- An object: its content and the tag the store gave it when it was written. -/
structure Object where
  data : Bytes
  etag : Etag
deriving DecidableEq

/-- The bucket: at most one object at every path. -/
abbrev Store := AList (fun _ : Str => Object)

/-! ### Keys on the wire -/

/-- Characters `object_store` percent-encodes in a path segment. -/
def needsEscape (c : Char) : Bool :=
  c.toNat < 0x20 || 0x7f ≤ c.toNat ||
    [0x22, 0x23, 0x25, 0x2a, 0x2f, 0x3c, 0x3e, 0x3f, 0x5b, 0x5c, 0x5d, 0x5e, 0x60, 0x7b, 0x7c, 0x7d, 0x7e].contains c.toNat

/-- One upper-case hex digit. -/
def upperHexDigit (n : ℕ) : Char := if n < 10 then Char.ofNat (48 + n) else Char.ofNat (55 + n)

/-- A byte, percent-encoded. -/
def percentByte (b : UInt8) : Str := ['%', upperHexDigit (b.toNat / 16), upperHexDigit (b.toNat % 16)]

/-- `PathPart::from`: dots that would navigate and unsafe characters are percent-encoded. -/
def encodeSegment (s : Str) : Str :=
  if s = ".".toList then "%2E".toList
  else if s = "..".toList then "%2E%2E".toList
  else s.flatMap fun c => if needsEscape c then (String.utf8EncodeChar c).flatMap percentByte else [c]

/-- The segments a key keeps on the wire: empty ones are dropped. -/
def wireSegments (key : Str) : List Str := ((key.splitOn '/').filter (· ≠ [])).map encodeSegment

/-- `object_store::Path::from`. -/
def pathFrom (key : Str) : Str := ['/'].intercalate (wireSegments key)

/-! ### Requests -/

/-- The errors of the client the kernel tells apart. -/
inductive StoreError where
  | notFound
  | preconditionFailed
  | failed
deriving DecidableEq

/-- A per-key or request-level provider diagnostic. -/
structure ObjectDeleteDiagnostic where
  code : Option Str
  message : Str
  truncated : Bool
deriving DecidableEq

/-- Why a DeleteObjects request had no usable response. -/
inductive DeleteObjectsRequestError where
  | unsupported (diagnostic : ObjectDeleteDiagnostic)
  | request (diagnostic : ObjectDeleteDiagnostic)
  | invalidResponse (diagnostic : ObjectDeleteDiagnostic)
deriving DecidableEq

/-- Requests. `get` is `download` and `download_with_etag`; `put` is `upload_conditional`, with
`If-None-Match: *` for `none` and `If-Match` for a tag. -/
inductive Req where
  | get (path : Str)
  | put (path : Str) (data : Bytes) (expected : Option Etag)
  | delete (path : Str)
  | deleteIf (path : Str) (expected : Etag)
  | deleteObjects (paths : List Str)
  | list (pfx : Str) (after : Option Str) (limit : ℕ)
  | listSizes (pfx : Str) (after : Option Str) (limit : ℕ)
deriving DecidableEq

/-- Answers. A reported etag is optional: a backend may leave it out. -/
abbrev Resp : Req → Type
  | .get _ => Except StoreError (Bytes × Option Etag)
  | .put _ _ _ => Except StoreError (Option Etag)
  | .delete _ => Except StoreError Unit
  | .deleteIf _ _ => Except StoreError Unit
  | .deleteObjects _ => Except DeleteObjectsRequestError (List (Str × Except ObjectDeleteDiagnostic Unit))
  | .list _ _ _ => Except StoreError (List Str)
  | .listSizes _ _ _ => Except StoreError (List (Str × ℕ))

/-! ### The client's methods -/

/-- A client's program that may fail with an `ε`. -/
abbrev StoreOp (ε α : Type) := Conc.Op Req Resp ε α

section
variable {ε : Type}

/-- `download`, `download_with_etag`. -/
abbrev download (path : Str) : StoreOp ε (Except StoreError (Bytes × Option Etag)) :=
  Conc.Op.ask (Req.get path)

/-- `upload_conditional`. -/
abbrev uploadConditional (path : Str) (data : Bytes) (expected : Option Etag) :
    StoreOp ε (Except StoreError (Option Etag)) :=
  Conc.Op.ask (Req.put path data expected)

/-- `delete`. -/
abbrev deleteObject (path : Str) : StoreOp ε (Except StoreError Unit) :=
  Conc.Op.ask (Req.delete path)

/-- `delete_conditional`. -/
abbrev deleteConditional (path : Str) (expected : Etag) : StoreOp ε (Except StoreError Unit) :=
  Conc.Op.ask (Req.deleteIf path expected)

/-- `list_prefix_after`; a limit of 0 asks nothing. -/
abbrev listPrefixAfter (pfx : Str) (after : Option Str) (limit : ℕ) :
    StoreOp ε (Except StoreError (List Str)) :=
  Conc.Op.ask (Req.list pfx after limit)

/-- `list_prefix_after_with_sizes`. -/
abbrev listPrefixAfterWithSizes (pfx : Str) (after : Option Str) (limit : ℕ) :
    StoreOp ε (Except StoreError (List (Str × ℕ))) :=
  Conc.Op.ask (Req.listSizes pfx after limit)

end

/-- A backend: the etags it may give an object with some content, whether a request may fail before or
after its effect, and whether a list may omit keys. -/
structure Backend where
  tags : Bytes → Etag → Prop
  faults : Prop
  omits : Prop

/-- Equal etags name equal contents. -/
def Backend.Sound (B : Backend) : Prop := ∀ d d' e, B.tags d e → B.tags d' e → d = d'

namespace Store

/-- The condition of a `put`: nothing is there, or what is there has the expected tag. -/
def accepts (s : Store) (path : Str) : Option Etag → Bool
  | none => (s.lookup path).isNone
  | some e => (s.lookup path).any (·.etag = e)

/-- The keys under directory `pfx`, in byte order, after the exclusive offset. -/
def listing (s : Store) (pfx : Str) (after : Option Str) : List Str :=
  (s.keys.filter fun k => (pathFrom pfx ++ ['/']).isPrefixOf k && after.all (pathFrom · < k)).insertionSort (· ≤ ·)

/-- A key and the size of its object. -/
def sized (s : Store) (k : Str) : Str × ℕ := (k, (s.lookup k).elim 0 (·.data.length))

/-- What a download finds. -/
def found (s : Store) (path : Str) : Except StoreError (Bytes × Option Etag) :=
  match s.lookup path with
  | some o => .ok (o.data, some o.etag)
  | none => .error .notFound

end Store

/-- What a backend may do on a request: its answer and the bucket after it. -/
def Backend.exec (B : Backend) (s : Store) : (r : Req) → Resp r → Store → Prop
  | .get p, x, s' =>
    s' = s ∧ (x = s.found (pathFrom p) ∨
      B.faults ∧ (x = .error .failed ∨ ∃ d e, s.found (pathFrom p) = .ok (d, some e) ∧ x = .ok (d, none)))
  | .put p d c, x, s' =>
    (s.accepts (pathFrom p) c = true ∧ ∃ e, B.tags d e ∧ s' = s.insert (pathFrom p) ⟨d, e⟩ ∧
      (x = .ok (some e) ∨ B.faults ∧ (x = .ok none ∨ x = .error .failed))) ∨
    (s.accepts (pathFrom p) c = false ∧ s' = s ∧ x = .error .preconditionFailed) ∨
    (B.faults ∧ s' = s ∧ x = .error .failed)
  | .delete p, x, s' =>
    (s' = s.erase (pathFrom p) ∧ (x = .ok () ∨ B.faults ∧ x = .error .failed)) ∨
    (B.faults ∧ s' = s ∧ x = .error .failed)
  | .deleteIf p e, x, s' =>
    (s.accepts p (some e) = true ∧ s' = s.erase p ∧ (x = .ok () ∨ B.faults ∧ x = .error .failed)) ∨
    (s.accepts p (some e) = false ∧ s' = s ∧
      x = .error (if (s.lookup p).isSome then .preconditionFailed else .notFound)) ∨
    (B.faults ∧ s' = s ∧ x = .error .failed)
  | .deleteObjects ps, x, s' =>
    (s' = ps.foldl (fun s p => s.erase p) s ∧ x = .ok (ps.map fun p => (p, .ok ()))) ∨
    (B.faults ∧ ∃ gone, gone ⊆ ps ∧ s' = gone.foldl (fun s p => s.erase p) s)
  | .list pfx after limit, x, s' =>
    s' = s ∧ (x = .ok ((s.listing pfx after).take limit) ∨
      B.omits ∧ (∃ ks, ks.Sublist (s.listing pfx after) ∧ ks.length ≤ limit ∧ x = .ok ks) ∨
      B.faults ∧ x = .error .failed)
  | .listSizes pfx after limit, x, s' =>
    s' = s ∧ (x = .ok (((s.listing pfx after).take limit).map s.sized) ∨
      B.omits ∧ (∃ ks : List Str, ks.Sublist (s.listing pfx after) ∧ ks.length ≤ limit ∧ x = .ok (ks.map s.sized)) ∨
      B.faults ∧ x = .error .failed)

/-- The honest backend with content etags `etag`, as a function. -/
def Store.serve (etag : Bytes → Etag) (s : Store) : (r : Req) → Resp r × Store
  | .get p => (s.found (pathFrom p), s)
  | .put p d c =>
    if s.accepts (pathFrom p) c then (.ok (some (etag d)), s.insert (pathFrom p) ⟨d, etag d⟩)
    else (.error .preconditionFailed, s)
  | .delete p => (.ok (), s.erase (pathFrom p))
  | .deleteIf p e =>
    if s.accepts p (some e) then (.ok (), s.erase p)
    else (.error (if (s.lookup p).isSome then .preconditionFailed else .notFound), s)
  | .deleteObjects ps => (.ok (ps.map fun p => (p, .ok ())), ps.foldl (fun s p => s.erase p) s)
  | .list pfx after limit => (.ok ((s.listing pfx after).take limit), s)
  | .listSizes pfx after limit => (.ok (((s.listing pfx after).take limit).map s.sized), s)

theorem Backend.exec_serve {B : Backend} {etag : Bytes → Etag} (ht : ∀ d, B.tags d (etag d)) (s : Store)
    (r : Req) : B.exec s r (s.serve etag r).1 (s.serve etag r).2 := by
  cases r with
  | get p => exact ⟨rfl, .inl rfl⟩
  | put p d c =>
    by_cases h : s.accepts (pathFrom p) c = true
    · simp only [Store.serve, if_pos h]
      exact .inl ⟨h, etag d, ht d, rfl, .inl rfl⟩
    · simp only [Store.serve, if_neg h]
      exact .inr (.inl ⟨by simpa using h, rfl, rfl⟩)
  | delete p => exact .inl ⟨rfl, .inl rfl⟩
  | deleteIf p e =>
    by_cases h : s.accepts p (some e) = true
    · simp only [Store.serve, if_pos h]
      exact .inl ⟨h, rfl, .inl rfl⟩
    · simp only [Store.serve, if_neg h]
      exact .inr (.inl ⟨by simpa using h, rfl, rfl⟩)
  | deleteObjects ps => exact .inl ⟨rfl, rfl⟩
  | list pfx after limit => exact ⟨rfl, .inl rfl⟩
  | listSizes pfx after limit => exact ⟨rfl, .inl rfl⟩

/-- An etag that spells the content out. -/
def contentTag (d : Bytes) : Etag := d.map fun b => Char.ofNat b.toNat

/-- The backend that tags every object with its content, never fails and lists everything. -/
def Backend.honest : Backend := ⟨fun d e => e = contentTag d, False, False⟩

theorem Backend.exec_honest (s : Store) (r : Req) :
    Backend.honest.exec s r (s.serve contentTag r).1 (s.serve contentTag r).2 := exec_serve (fun _ => rfl) s r

/-- What a program evaluates to is one of its runs. -/
theorem runs_of_eval_fst {α : Type} {p : Conc.Prog Req Resp α} {a : α} {s : Store} (h : (p.eval (Store.serve contentTag) s).1 = some a) :
    p.Runs Backend.honest.exec s a (p.eval (Store.serve contentTag) s).2 :=
  Conc.Prog.runs_of_eval Backend.exec_honest (Prod.ext h rfl)

/-- The honest backend does nothing else. -/
theorem Backend.serve_of_honest {s s' : Store} {r : Req} {x : Resp r} (h : Backend.honest.exec s r x s') :
    s.serve contentTag r = (x, s') := by
  cases r with
  | get p =>
    obtain ⟨rfl, rfl | ⟨⟨⟩, -⟩⟩ := h
    rfl
  | put p d c =>
    obtain ⟨ha, e, rfl, rfl, rfl | ⟨⟨⟩, -⟩⟩ | ⟨ha, rfl, rfl⟩ | ⟨⟨⟩, -⟩ := h
    · simp [Store.serve, ha]
    · simp [Store.serve, ha]
  | delete p =>
    obtain ⟨rfl, rfl | ⟨⟨⟩, -⟩⟩ | ⟨⟨⟩, -⟩ := h
    rfl
  | deleteIf p e =>
    obtain ⟨ha, rfl, rfl | ⟨⟨⟩, -⟩⟩ | ⟨ha, rfl, rfl⟩ | ⟨⟨⟩, -⟩ := h
    · simp [Store.serve, ha]
    · simp [Store.serve, ha]
  | deleteObjects ps =>
    obtain ⟨rfl, rfl⟩ | ⟨⟨⟩, -⟩ := h
    rfl
  | list pfx after n =>
    obtain ⟨rfl, rfl | ⟨⟨⟩, -⟩ | ⟨⟨⟩, -⟩⟩ := h
    rfl
  | listSizes pfx after n =>
    obtain ⟨rfl, rfl | ⟨⟨⟩, -⟩ | ⟨⟨⟩, -⟩⟩ := h
    rfl

theorem contentTag_injective : Function.Injective contentTag := by
  refine List.map_injective_iff.2 fun a b h => ?_
  have hv : ∀ c : UInt8, (Char.ofNat c.toNat).toNat = c.toNat := fun c => by
    have := c.toNat_lt
    rw [Char.ofNat, dif_pos (.inl (by omega))]
    rfl
  rw [← UInt8.toNat_inj, ← hv a, ← hv b, h]

theorem Backend.honest_sound : Backend.honest.Sound := fun _ _ _ h h' => contentTag_injective (h.symm.trans h')

/-! ### What a request can do -/

section
variable {B : Backend} {s s' : Store} {p : Str} {d : Bytes}

theorem Store.accepts_none : s.accepts p none = true ↔ s.lookup p = none := by simp [Store.accepts]

theorem Store.accepts_some {e : Etag} : s.accepts p (some e) = true ↔ ∃ o, s.lookup p = some o ∧ o.etag = e := by
  simp [Store.accepts, Option.any_eq_true]

namespace Backend

theorem get_store {x} (h : B.exec s (.get p) x s') : s' = s := h.1

theorem get_ok {e : Option Etag} (h : B.exec s (.get p) (.ok (d, e)) s') :
    ∃ o, s.lookup (pathFrom p) = some o ∧ o.data = d ∧ ∀ t, e = some t → o.etag = t := by
  obtain ⟨-, h | ⟨-, h | ⟨d', t, h, hx⟩⟩⟩ := h
  · unfold Store.found at h
    split at h
    · next o ho =>
      cases h
      exact ⟨o, ho, rfl, by simp⟩
    · cases h
  · cases h
  · unfold Store.found at h
    split at h
    · next o ho =>
      cases h
      cases hx
      exact ⟨o, ho, rfl, by simp⟩
    · cases h

theorem get_notFound (h : B.exec s (.get p) (.error .notFound) s') : s.lookup (pathFrom p) = none := by
  obtain ⟨-, h | ⟨-, h | ⟨d', t, h, hx⟩⟩⟩ := h
  · unfold Store.found at h
    split at h
    · cases h
    · assumption
  · cases h
  · cases hx

/-- A get that does not find nothing fails because the backend does. -/
theorem get_error {e : StoreError} (h : B.exec s (.get p) (.error e) s') (he : e ≠ .notFound) : B.faults := by
  obtain ⟨-, h | ⟨hf, -⟩⟩ := h
  · unfold Store.found at h
    split at h <;> cases h
    exact absurd rfl he
  · exact hf

/-- A backend that does not fail reports the etag. -/
theorem get_etag (hB : ¬ B.faults) {e : Option Etag} (h : B.exec s (.get p) (.ok (d, e)) s') : ∃ t, e = some t := by
  obtain ⟨-, h | ⟨hf, -⟩⟩ := h
  · unfold Store.found at h
    split at h <;> cases h
    exact ⟨_, rfl⟩
  · exact absurd hf hB

theorem put_ok {c e : Option Etag} (h : B.exec s (.put p d c) (.ok e) s') :
    s.accepts (pathFrom p) c = true ∧
      ∃ t, B.tags d t ∧ s' = s.insert (pathFrom p) ⟨d, t⟩ ∧ ∀ t', e = some t' → t' = t := by
  obtain ⟨ha, t, ht, hs, h | ⟨-, h | h⟩⟩ | ⟨-, -, h⟩ | ⟨-, -, h⟩ := h
  · cases h
    exact ⟨ha, t, ht, hs, by simp⟩
  · cases h
    exact ⟨ha, t, ht, hs, by simp⟩
  all_goals cases h

theorem put_precondition {c : Option Etag} (h : B.exec s (.put p d c) (.error .preconditionFailed) s') :
    s.accepts (pathFrom p) c = false ∧ s' = s := by
  obtain ⟨-, t, -, -, h | ⟨-, h | h⟩⟩ | ⟨ha, hs, -⟩ | ⟨-, -, h⟩ := h
  any_goals cases h
  exact ⟨ha, hs⟩

/-- A put leaves the bucket as it is or lands. -/
theorem put_store {c : Option Etag} {x} (h : B.exec s (.put p d c) x s') :
    s' = s ∨ s.accepts (pathFrom p) c = true ∧ ∃ t, B.tags d t ∧ s' = s.insert (pathFrom p) ⟨d, t⟩ := by
  obtain ⟨ha, t, ht, hs, -⟩ | ⟨-, hs, -⟩ | ⟨-, hs, -⟩ := h
  · exact .inr ⟨ha, t, ht, hs⟩
  · exact .inl hs
  · exact .inl hs

theorem delete_store {x} (h : B.exec s (.delete p) x s') : s' = s ∨ s' = s.erase (pathFrom p) := by
  obtain ⟨hs, -⟩ | ⟨-, hs, -⟩ := h
  · exact .inr hs
  · exact .inl hs

/-- A conditional delete leaves the bucket as it is or removes an object with the expected etag. -/
theorem deleteIf_store {e : Etag} {x} (h : B.exec s (.deleteIf p e) x s') :
    s' = s ∨ (∃ o, s.lookup p = some o ∧ o.etag = e) ∧ s' = s.erase p := by
  obtain ⟨ha, hs, -⟩ | ⟨-, hs, -⟩ | ⟨-, hs, -⟩ := h
  · exact .inr ⟨Store.accepts_some.1 ha, hs⟩
  · exact .inl hs
  · exact .inl hs

/-- On a backend that does not fail, a conditional delete leaves no object with the expected etag. -/
theorem deleteIf_gone {e : Etag} {x} (hB : ¬ B.faults) (h : B.exec s (.deleteIf p e) x s') :
    ∀ o, s'.lookup p = some o → o.etag ≠ e := by
  obtain ⟨-, rfl, -⟩ | ⟨ha, rfl, -⟩ | ⟨hf, -⟩ := h
  · intro o ho
    rw [AList.lookup_erase] at ho
    cases ho
  · intro o ho he
    rw [Store.accepts_some.2 ⟨o, ho, he⟩] at ha
    cases ha
  · exact absurd hf hB

/-- A conditional delete that fails otherwise than on its condition does so because the backend does. -/
theorem deleteIf_failed {e : Etag} (h : B.exec s (.deleteIf p e) (.error .failed) s') : B.faults := by
  obtain ⟨-, -, h | ⟨hf, -⟩⟩ | ⟨-, -, h⟩ | ⟨hf, -⟩ := h
  · cases h
  · exact hf
  · split at h <;> cases h
  · exact hf

/-- A put that fails otherwise than on its condition does so because the backend does. -/
theorem put_failed {c : Option Etag} {e : StoreError} (h : B.exec s (.put p d c) (.error e) s')
    (he : e ≠ .preconditionFailed) : B.faults := by
  obtain ⟨-, t, -, -, h | ⟨hf, -⟩⟩ | ⟨-, -, h⟩ | ⟨hf, -⟩ := h
  · cases h
  · exact hf
  · exact absurd (Except.error.inj h) he
  · exact hf

/-- A backend that does not fail reports the etag of what it wrote. -/
theorem put_etag (hB : ¬ B.faults) {c e : Option Etag} (h : B.exec s (.put p d c) (.ok e) s') : ∃ t, e = some t := by
  obtain ⟨-, t, -, -, h | ⟨hf, -⟩⟩ | ⟨-, -, h⟩ | ⟨hf, -⟩ := h
  · cases h
    exact ⟨t, rfl⟩
  · exact absurd hf hB
  · cases h
  · exact absurd hf hB

theorem list_store {after : Option Str} {n : ℕ} {x} (h : B.exec s (.list p after n) x s') : s' = s := h.1

theorem listSizes_store {after : Option Str} {n : ℕ} {x} (h : B.exec s (.listSizes p after n) x s') : s' = s := h.1

end Backend

/-- Every object has an etag the backend may have given it. -/
def Store.Tagged (B : Backend) (s : Store) : Prop := ∀ p o, s.lookup p = some o → B.tags o.data o.etag

theorem Store.Tagged.insert (h : s.Tagged B) {o : Object} (ho : B.tags o.data o.etag) :
    Store.Tagged B (AList.insert p o s) := by
  intro q o' hq
  by_cases hpq : q = p
  · rw [hpq, AList.lookup_insert] at hq
    cases hq
    exact ho
  · rw [AList.lookup_insert_ne hpq] at hq
    exact h q o' hq

theorem Store.Tagged.erase (h : s.Tagged B) : Store.Tagged B (AList.erase p s) := by
  intro q o' hq
  by_cases hpq : q = p
  · rw [hpq, AList.lookup_erase] at hq
    cases hq
  · rw [AList.lookup_erase_ne hpq] at hq
    exact h q o' hq

theorem Store.Tagged.foldl_erase {ps : List Str} (h : s.Tagged B) :
    Store.Tagged B (ps.foldl (fun s p => s.erase p) s) := by
  induction ps generalizing s with
  | nil => exact h
  | cons p ps ih => exact ih h.erase

theorem Backend.exec_tagged {r : Req} {x : Resp r} (h : B.exec s r x s') (ht : s.Tagged B) : s'.Tagged B := by
  cases r with
  | get p => exact (get_store h) ▸ ht
  | put p d c =>
    obtain rfl | ⟨-, t, htag, rfl⟩ := put_store h
    · exact ht
    · exact ht.insert htag
  | delete p =>
    obtain rfl | rfl := delete_store h
    · exact ht
    · exact ht.erase
  | deleteIf p e =>
    obtain rfl | ⟨-, rfl⟩ := deleteIf_store h
    · exact ht
    · exact ht.erase
  | deleteObjects ps =>
    obtain ⟨rfl, -⟩ | ⟨-, gone, -, rfl⟩ := h
    · exact ht.foldl_erase
    · exact ht.foldl_erase
  | list pfx after n => exact (list_store h) ▸ ht
  | listSizes pfx after n => exact (listSizes_store h) ▸ ht

end

end YeetzS3
