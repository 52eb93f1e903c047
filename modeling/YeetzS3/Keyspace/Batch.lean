import YeetzS3.Keyspace.Deletes

/-!
# Batched deletes report what was confirmed

`delete_objects` and the client's method under it: the answer to a DeleteObjects request is reconciled with the paths of the
request once in the client and once more in the keyspace. Whatever the answers are, an outcome is a success only where an
answer said so exactly.
-/

namespace YeetzS3.Keyspace

open Conc

/-! ### The client -/

/-- `S3ErrorEntry`. -/
structure S3ErrorEntry where
  key : Option Str
  code : Option Str
  message : Option Str
deriving DecidableEq

/-- What comes of a DeleteObjects request: a verbose `DeleteResult`, one of the ways `SdkError` tells apart, or a client
without the wire. -/
inductive DeleteObjectsAnswer where
  | output (deleted : List (Option Str)) (errors : List S3ErrorEntry)
  | serviceError (status : ℕ) (code message : Option Str)
  | responseError (status : ℕ) (text : Str)
  | failed (text : Str)
  | unwired
deriving DecidableEq

/-- `DELETE_OBJECTS_DIAGNOSTIC_BUDGET`. -/
def deleteObjectsDiagnosticBudget : ℕ := 512

/-- `truncate_utf8`: the characters that fit into so many bytes. -/
def truncateUtf8 : ℕ → Str → Str
  | _, [] => []
  | max, c :: cs => if c.utf8Size ≤ max then c :: truncateUtf8 (max - c.utf8Size) cs else []

/-- `bounded_delete_diagnostic`. -/
def boundedDeleteDiagnostic (code : Option Str) (message : Str) : ObjectDeleteDiagnostic :=
  let code := code.getD []
  if deleteObjectsDiagnosticBudget < byteLen code + byteLen message then
    let code := truncateUtf8 deleteObjectsDiagnosticBudget code
    let message := truncateUtf8 (deleteObjectsDiagnosticBudget - byteLen code) message
    ⟨if code = [] then none else some code, message, true⟩
  else ⟨if code = [] then none else some code, message, false⟩

/-- `delete_objects_invalid_response`. -/
def deleteObjectsInvalidResponse (reason : Str) : DeleteObjectsRequestError :=
  .invalidResponse (boundedDeleteDiagnostic (some "InvalidResponse".toList) reason)

/-- The first path that was there before. -/
def firstDuplicate (seen : List Str) : List Str → Option Str
  | [] => none
  | path :: paths => if path ∈ seen then some path else firstDuplicate (path :: seen) paths

/-- One of the two loops of `reconcile_delete_objects`, over the members of a kind. -/
def fillMembers (kind : Str) (paths : List Str) : List (Option Str × Except ObjectDeleteDiagnostic Unit) →
    List (Option (Except ObjectDeleteDiagnostic Unit)) →
      Except DeleteObjectsRequestError (List (Option (Except ObjectDeleteDiagnostic Unit)))
  | [], slots => .ok slots
  | (none, _) :: _, _ => .error (deleteObjectsInvalidResponse (kind ++ " member without a key".toList))
  | (some key, result) :: members, slots =>
    if key ∈ paths ∧ ((slots[paths.idxOf key]?).bind id).isNone then
      fillMembers kind paths members (slots.set (paths.idxOf key) (some result))
    else .error (deleteObjectsInvalidResponse (kind ++ " member for an unrequested or already-reported key: ".toList ++ key))

/-- The members of the two kinds, with what they report. -/
def membersOf (deleted : List (Option Str)) (errors : List S3ErrorEntry) :
    List (Option Str × Except ObjectDeleteDiagnostic Unit) × List (Option Str × Except ObjectDeleteDiagnostic Unit) :=
  (deleted.map fun key => (key, .ok ()),
    errors.map fun entry => (entry.key, .error (boundedDeleteDiagnostic entry.code (entry.message.getD []))))

/-- `reconcile_delete_objects`. -/
def reconcileDeleteObjects (paths : List Str) (deleted : List (Option Str)) (errors : List S3ErrorEntry) :
    Except DeleteObjectsRequestError (List (Str × Except ObjectDeleteDiagnostic Unit)) :=
  match firstDuplicate [] paths with
  | some path => .error (deleteObjectsInvalidResponse ("request contains a duplicate path: ".toList ++ path))
  | none =>
    match fillMembers "Deleted".toList paths (membersOf deleted errors).1 (paths.map fun _ => none) with
    | .error e => .error e
    | .ok slots =>
      match fillMembers "Error".toList paths (membersOf deleted errors).2 slots with
      | .error e => .error e
      | .ok slots =>
        if slots.any (·.isNone) then .error (deleteObjectsInvalidResponse "response omitted a requested key".toList)
        else .ok (paths.zip (slots.map (·.getD (.ok ()))))

/-- `map_delete_objects_error`, on a service error. -/
def mapServiceError (status : ℕ) (code message : Option Str) : DeleteObjectsRequestError :=
  let diagnostic := boundedDeleteDiagnostic code (message.getD [])
  if status = 405 ∨ status = 501 ∨ code = some "MethodNotAllowed".toList ∨ code = some "NotImplemented".toList then
    .unsupported diagnostic
  else .request diagnostic

/-- The client's `delete_objects`, on what comes of its request. -/
def reconcileAnswer (paths : List Str) :
    DeleteObjectsAnswer → Except DeleteObjectsRequestError (List (Str × Except ObjectDeleteDiagnostic Unit))
  | .output deleted errors => reconcileDeleteObjects paths deleted errors
  | .serviceError status code message => .error (mapServiceError status code message)
  | .responseError status text => .error (.invalidResponse (boundedDeleteDiagnostic none
      ("response did not decode (".toList ++ Nat.toDigits 10 status ++ "): ".toList ++ text)))
  | .failed text => .error (.request (boundedDeleteDiagnostic none text))
  | .unwired => .error (.unsupported ⟨none, ("DeleteObjects requires an S3 endpoint backend; ".toList ++
      "in-memory stores have no multi-object delete wire".toList), false⟩)

/-- A request and what came of it. -/
structure Exchange where
  paths : List Str
  answer : DeleteObjectsAnswer

/-- A bucket that gives its `n`-th request the `n`-th answer, and keeps the exchanges. Only DeleteObjects is asked of it. -/
def serveBatch (answers : ℕ → DeleteObjectsAnswer) (log : List Exchange) : (r : Req) → Resp r × List Exchange
  | .deleteObjects paths => (reconcileAnswer paths (answers log.length), log ++ [⟨paths, answers log.length⟩])
  | .get _ => (.error .failed, log)
  | .put _ _ _ => (.error .failed, log)
  | .delete _ => (.error .failed, log)
  | .deleteIf _ _ => (.error .failed, log)
  | .list _ _ _ => (.error .failed, log)
  | .listSizes _ _ _ => (.error .failed, log)

/-! ### Exact answers -/

/-- The answer has exactly one member for every path of the request, and no other. -/
def Exchange.Exact (e : Exchange) : Prop :=
  ∃ deleted errors, e.answer = .output deleted errors ∧ (deleted ++ errors.map (·.key)).Perm (e.paths.map some)

/-- The answer has a Deleted member for the path. -/
def Exchange.Deletes (e : Exchange) (path : Str) : Prop :=
  ∃ deleted errors, e.answer = .output deleted errors ∧ some path ∈ deleted

/-- The answer has an Error member for the path, with this diagnostic. -/
def Exchange.Rejects (e : Exchange) (path : Str) (diagnostic : ObjectDeleteDiagnostic) : Prop :=
  ∃ deleted errors, e.answer = .output deleted errors ∧ ∃ entry ∈ errors,
    entry.key = some path ∧ diagnostic = boundedDeleteDiagnostic entry.code (entry.message.getD [])

/-- What a call that stops at this exchange says of the keys it did not come to. -/
def Exchange.tail (e : Exchange) : DeleteObjectsFailure :=
  match reconcileAnswer e.paths e.answer with
  | .error (.unsupported diagnostic) => .unsupported diagnostic
  | _ => .notAttempted

/-! ### Slots -/

section
variable {α : Type} {paths : List Str} {g g' : Str → Option α} {path : Str}

theorem getElem?_map_idxOf (h : path ∈ paths) : (paths.map g)[paths.idxOf path]? = some (g path) := by
  rw [List.getElem?_map, List.getElem?_eq_getElem (List.idxOf_lt_length_iff.2 h), List.getElem_idxOf]
  rfl

theorem set_map_idxOf (hp : paths.Nodup) {x : α} :
    (paths.map g).set (paths.idxOf path) (some x) = paths.map (Function.update g path (some x)) := by
  refine List.ext_getElem (by simp) fun i h₁ h₂ => ?_
  have hi : i < paths.length := by simpa using h₂
  rw [List.getElem_set, List.getElem_map, List.getElem_map]
  split
  · next hidx =>
    subst hidx
    rw [List.getElem_idxOf, Function.update_self]
  · next hidx =>
    rw [Function.update_of_ne fun hpath => hidx ?_]
    rw [← hpath]
    exact hp.idxOf_getElem i hi

/-- Slots `g'` come from slots `g` by filling in the entries, each into an empty one. -/
structure Filled (g : Str → Option α) (entries : List (Str × α)) (g' : Str → Option α) : Prop where
  nodup : (entries.map (·.1)).Nodup
  fresh : ∀ e ∈ entries, g e.1 = none
  filled : ∀ e ∈ entries, g' e.1 = some e.2
  kept : ∀ p x, g p = some x → g' p = some x
  only : ∀ p x, g' p = some x → g p = some x ∨ (p, x) ∈ entries

theorem Filled.nil : Filled g [] g := ⟨List.nodup_nil, nofun, nofun, fun _ _ => id, fun _ _ => .inl⟩

theorem Filled.cons {x : α} {entries : List (Str × α)} (hfree : g path = none)
    (h : Filled (Function.update g path (some x)) entries g') : Filled g ((path, x) :: entries) g' where
  nodup := by
    refine List.nodup_cons.2 ⟨fun hm => ?_, h.nodup⟩
    obtain ⟨e, he, hpath⟩ := List.mem_map.1 hm
    have hfresh := h.fresh e he
    rw [hpath, Function.update_self] at hfresh
    cases hfresh
  fresh e he := by
    rcases List.mem_cons.1 he with rfl | he
    · exact hfree
    · have hfresh := h.fresh e he
      by_cases hpath : e.1 = path
      · rw [hpath, Function.update_self] at hfresh
        cases hfresh
      · rwa [Function.update_of_ne hpath] at hfresh
  filled e he := by
    rcases List.mem_cons.1 he with rfl | he
    · exact h.kept _ _ (Function.update_self ..)
    · exact h.filled e he
  kept p y hy := by
    refine h.kept p y ?_
    rw [Function.update_of_ne]
    · exact hy
    · rintro rfl
      rw [hfree] at hy
      cases hy
  only p y hy := by
    rcases h.only p y hy with hy | he
    · by_cases hp : p = path
      · subst hp
        rw [Function.update_self] at hy
        cases hy
        exact .inr List.mem_cons_self
      · rw [Function.update_of_ne hp] at hy
        exact .inl hy
    · exact .inr (List.mem_cons_of_mem _ he)

theorem Filled.uncons {x : α} {entries : List (Str × α)} (h : Filled g ((path, x) :: entries) g') :
    g path = none ∧ Filled (Function.update g path (some x)) entries g' := by
  obtain ⟨hnot, hnodup⟩ := List.nodup_cons.1 h.nodup
  have hfree : g path = none := h.fresh _ List.mem_cons_self
  refine ⟨hfree, hnodup, fun e he => ?_, fun e he => h.filled e (List.mem_cons_of_mem _ he), fun p y hy => ?_, fun p y hy => ?_⟩
  · have hne : e.1 ≠ path := fun heq => hnot (List.mem_map.2 ⟨e, he, heq⟩)
    rw [Function.update_of_ne hne]
    exact h.fresh e (List.mem_cons_of_mem _ he)
  · by_cases hp : p = path
    · subst hp
      rw [Function.update_self] at hy
      cases hy
      exact h.filled _ List.mem_cons_self
    · rw [Function.update_of_ne hp] at hy
      exact h.kept p y hy
  · rcases h.only p y hy with hy | he
    · refine .inl ?_
      rw [Function.update_of_ne]
      · exact hy
      · rintro rfl
        rw [hfree] at hy
        cases hy
    · rcases List.mem_cons.1 he with he | he
      · cases he
        exact .inl (Function.update_self ..)
      · exact .inr he

theorem Filled.eq (h : Filled g [] g') : g' = g := by
  funext p
  cases hg : g' p with
  | none =>
    cases hg₀ : g p with
    | none => rfl
    | some x =>
      rw [h.kept p x hg₀] at hg
      cases hg
  | some x =>
    rcases h.only p x hg with hy | he
    · exact hy.symm
    · cases he

/-- Entries for different empty slots can be filled in. -/
theorem exists_filled {entries : List (Str × α)} (hn : (entries.map (·.1)).Nodup) (hf : ∀ e ∈ entries, g e.1 = none) :
    ∃ g', Filled g entries g' := by
  induction entries generalizing g with
  | nil => exact ⟨g, .nil⟩
  | cons e entries ih =>
    obtain ⟨hnot, hn⟩ := List.nodup_cons.1 hn
    obtain ⟨g', hg'⟩ := @ih (Function.update g e.1 (some e.2)) hn fun e' he' => by
      rw [Function.update_of_ne fun heq => hnot (List.mem_map.2 ⟨e', he', heq⟩)]
      exact hf e' (List.mem_cons_of_mem _ he')
    exact ⟨g', .cons (hf e List.mem_cons_self) hg'⟩

end

/-! ### The two reconciliations -/

section
variable {paths : List Str} {deleted : List (Option Str)} {errors : List S3ErrorEntry}

theorem firstDuplicate_none {seen : List Str} : firstDuplicate seen paths = none ↔ paths.Nodup ∧ ∀ p ∈ paths, p ∉ seen := by
  induction paths generalizing seen with
  | nil => simp [firstDuplicate]
  | cons path paths ih =>
    rw [firstDuplicate]
    split
    · next hseen => simp [hseen]
    · next hseen =>
      rw [ih, List.nodup_cons]
      simp only [List.mem_cons, not_or, forall_eq_or_imp]
      constructor
      · rintro ⟨hnodup, hall⟩
        exact ⟨⟨fun hm => (hall path hm).1 rfl, hnodup⟩, hseen, fun p hm => (hall p hm).2⟩
      · rintro ⟨⟨hpath, hnodup⟩, -, hall⟩
        exact ⟨hnodup, fun p hm => ⟨fun he => hpath (he ▸ hm), hall p hm⟩⟩

/-- A loop of the client that ends has filled in every member. -/
theorem fillMembers_ok (hp : paths.Nodup) {kind : Str} {members : List (Option Str × Except ObjectDeleteDiagnostic Unit)}
    {g : Str → Option (Except ObjectDeleteDiagnostic Unit)} {slots : List (Option (Except ObjectDeleteDiagnostic Unit))} :
    fillMembers kind paths members (paths.map g) = .ok slots ↔
      ∃ entries g', members = entries.map (fun e => (some e.1, e.2)) ∧ (∀ e ∈ entries, e.1 ∈ paths) ∧ Filled g entries g' ∧
        slots = paths.map g' := by
  induction members generalizing g with
  | nil =>
    rw [fillMembers]
    constructor
    · rintro ⟨⟩
      exact ⟨[], g, rfl, nofun, .nil, rfl⟩
    · rintro ⟨entries, g', hm, -, hfill, rfl⟩
      obtain rfl := List.map_eq_nil_iff.1 hm.symm
      rw [hfill.eq]
  | cons member members ih =>
    obtain ⟨key, x⟩ := member
    cases key with
    | none =>
      rw [fillMembers]
      refine ⟨nofun, ?_⟩
      rintro ⟨entries, g', hm, -⟩
      cases entries with
      | nil => cases hm
      | cons e entries => cases (List.cons.inj hm).1
    | some key =>
      rw [fillMembers]
      constructor
      · intro h
        split at h
        · next hc =>
          rw [getElem?_map_idxOf hc.1, Option.bind_some, id] at hc
          rw [set_map_idxOf hp] at h
          obtain ⟨entries, g', rfl, hall, hfill, rfl⟩ := ih.1 h
          refine ⟨(key, x) :: entries, g', rfl, fun e he => ?_, .cons (Option.isNone_iff_eq_none.1 hc.2) hfill, rfl⟩
          rcases List.mem_cons.1 he with rfl | he
          · exact hc.1
          · exact hall e he
        · cases h
      · rintro ⟨entries, g', hm, hall, hfill, rfl⟩
        cases entries with
        | nil => cases hm
        | cons e entries =>
          obtain ⟨hhead, rfl⟩ := List.cons.inj hm
          cases hhead
          have hmem := hall e List.mem_cons_self
          obtain ⟨hfree, hfill⟩ := hfill.uncons
          rw [getElem?_map_idxOf hmem, Option.bind_some, id, hfree, if_pos ⟨hmem, rfl⟩, set_map_idxOf hp]
          exact ih.2 ⟨entries, g', rfl, fun e' he' => hall e' (List.mem_cons_of_mem _ he'), hfill, rfl⟩

/-- The loop of the keyspace fills in entries that the client lets through. -/
theorem fillSlots_eq (hp : paths.Nodup) {entries : List (Str × Except ObjectDeleteDiagnostic Unit)}
    {g g' : Str → Option (Except DeleteObjectsFailure Unit)} (hall : ∀ e ∈ entries, e.1 ∈ paths)
    (h : Filled g (entries.map fun e => (e.1, e.2.mapError .rejected)) g') :
    fillSlots paths entries (paths.map g) = (paths.map g', true) := by
  induction entries generalizing g with
  | nil => rw [fillSlots, h.eq]
  | cons entry entries ih =>
    obtain ⟨path, x⟩ := entry
    have hin := hall _ List.mem_cons_self
    obtain ⟨hfree, hrest⟩ := h.uncons
    rw [fillSlots, if_neg (not_not.2 hin), getElem?_map_idxOf hin, Option.bind_some, id, if_neg, set_map_idxOf hp]
    · exact ih (fun e he => hall e (List.mem_cons_of_mem _ he)) hrest
    · rw [hfree]
      exact nofun

/-- Members that name paths only. -/
theorem exists_entries {α : Type} {members : List (Option Str × α)} (h : ∀ m ∈ members, ∃ p ∈ paths, m.1 = some p) :
    ∃ entries : List (Str × α), members = entries.map (fun e => (some e.1, e.2)) ∧ ∀ e ∈ entries, e.1 ∈ paths := by
  induction members with
  | nil => exact ⟨[], rfl, nofun⟩
  | cons m members ih =>
    obtain ⟨p, hp, hm⟩ := h m List.mem_cons_self
    obtain ⟨entries, rfl, hall⟩ := ih fun m hm => h m (List.mem_cons_of_mem _ hm)
    refine ⟨(p, m.2) :: entries, by rw [List.map_cons, ← hm], fun e he => ?_⟩
    rcases List.mem_cons.1 he with rfl | he
    · exact hp
    · exact hall e he

theorem membersOf_keys : (membersOf deleted errors).1.map (·.1) = deleted ∧
    (membersOf deleted errors).2.map (·.1) = errors.map (·.key) := by
  unfold membersOf
  simp only [List.map_map]
  exact ⟨List.map_id _, rfl⟩

theorem keys_of_members {es es' : List (Str × Except ObjectDeleteDiagnostic Unit)}
    (hes : (membersOf deleted errors).1 = es.map fun e => (some e.1, e.2))
    (hes' : (membersOf deleted errors).2 = es'.map fun e => (some e.1, e.2)) :
    deleted ++ errors.map (·.key) = ((es ++ es').map (·.1)).map some := by
  obtain ⟨hk, hk'⟩ := @membersOf_keys deleted errors
  rw [hes] at hk
  rw [hes'] at hk'
  rw [← hk, ← hk', List.map_append, List.map_append]
  simp only [List.map_map]
  rfl

/-- The client accepts a result exactly if its members are the paths of the request. -/
theorem reconcileDeleteObjects_ok (hp : paths.Nodup) {entries : List (Str × Except ObjectDeleteDiagnostic Unit)} :
    reconcileDeleteObjects paths deleted errors = .ok entries ↔
      ∃ es es' g g', (membersOf deleted errors).1 = es.map (fun e => (some e.1, e.2)) ∧
        (membersOf deleted errors).2 = es'.map (fun e => (some e.1, e.2)) ∧
        (∀ e ∈ es, e.1 ∈ paths) ∧ (∀ e ∈ es', e.1 ∈ paths) ∧ Filled (fun _ => none) es g ∧ Filled g es' g' ∧
        (∀ p ∈ paths, g' p ≠ none) ∧ entries = paths.map fun p => (p, (g' p).getD (.ok ())) := by
  have hnone : firstDuplicate [] paths = none := firstDuplicate_none.2 ⟨hp, fun _ _ => List.not_mem_nil⟩
  have hzip : ∀ g' : Str → Option (Except ObjectDeleteDiagnostic Unit),
      paths.zip ((paths.map g').map (·.getD (.ok ()))) = paths.map fun p => (p, (g' p).getD (.ok ())) := fun g' => by
    rw [List.map_map, ← List.map_prod_left_eq_zip]
    rfl
  have hany : ∀ g' : Str → Option (Except ObjectDeleteDiagnostic Unit),
      (paths.map g').any (·.isNone) = true ↔ ∃ p ∈ paths, g' p = none := fun g' => by
    simp
  unfold reconcileDeleteObjects
  rw [hnone]
  dsimp only
  constructor
  · intro h
    split at h
    · cases h
    next slots h₁ =>
    obtain ⟨es, g, hes, hall, hfill, rfl⟩ := (fillMembers_ok hp).1 h₁
    split at h
    · cases h
    next slots h₂ =>
    obtain ⟨es', g', hes', hall', hfill', rfl⟩ := (fillMembers_ok hp).1 h₂
    split at h
    · cases h
    next hfull =>
    rw [hany] at hfull
    refine ⟨es, es', g, g', hes, hes', hall, hall', hfill, hfill', fun p hm hn => hfull ⟨p, hm, hn⟩, ?_⟩
    rw [← hzip]
    exact (Except.ok.inj h).symm
  · rintro ⟨es, es', g, g', hes, hes', hall, hall', hfill, hfill', hfull, rfl⟩
    rw [(fillMembers_ok hp).2 ⟨es, g, hes, hall, hfill, rfl⟩]
    dsimp only
    rw [(fillMembers_ok hp).2 ⟨es', g', hes', hall', hfill', rfl⟩]
    dsimp only
    rw [if_neg, hzip]
    rw [hany]
    rintro ⟨p, hm, hn⟩
    exact hfull p hm hn

/-- The client accepts exactly the exact answers. -/
theorem exact_iff {answer : DeleteObjectsAnswer} (hp : paths.Nodup) :
    Exchange.Exact ⟨paths, answer⟩ ↔ ∃ entries, reconcileAnswer paths answer = .ok entries := by
  constructor
  · rintro ⟨deleted, errors, rfl, hperm⟩
    show ∃ entries, reconcileDeleteObjects paths deleted errors = .ok entries
    obtain ⟨hk, hk'⟩ := @membersOf_keys deleted errors
    have hnodup : (deleted ++ errors.map (·.key)).Nodup :=
      hperm.nodup_iff.2 (hp.map fun _ _ h => Option.some.inj h)
    have hmem : ∀ k ∈ deleted ++ errors.map (·.key), ∃ p ∈ paths, k = some p := by
      intro k hm
      obtain ⟨p, hpath, rfl⟩ := List.mem_map.1 (hperm.mem_iff.1 hm)
      exact ⟨p, hpath, rfl⟩
    obtain ⟨es, hes, hall⟩ := @exists_entries paths _ (membersOf deleted errors).1 fun m hm =>
      hmem m.1 (List.mem_append_left _ (hk ▸ List.mem_map_of_mem hm))
    obtain ⟨es', hes', hall'⟩ := @exists_entries paths _ (membersOf deleted errors).2 fun m hm =>
      hmem m.1 (List.mem_append_right _ (hk' ▸ List.mem_map_of_mem hm))
    have hkeys := keys_of_members hes hes'
    rw [hkeys] at hnodup hperm
    have hdistinct := hnodup.of_map
    rw [List.map_append, List.nodup_append] at hdistinct
    obtain ⟨g, hg⟩ := exists_filled (g := fun _ => none) hdistinct.1 fun _ _ => rfl
    obtain ⟨g', hg'⟩ := exists_filled (g := g) hdistinct.2.1 fun e he => by
      cases hge : g e.1 with
      | none => rfl
      | some x =>
        rcases hg.only _ x hge with hn | hm
        · cases hn
        · exact absurd rfl (hdistinct.2.2 _ (List.mem_map.2 ⟨_, hm, rfl⟩) _ (List.mem_map.2 ⟨e, he, rfl⟩))
    refine ⟨_, (reconcileDeleteObjects_ok hp).2 ⟨es, es', g, g', hes, hes', hall, hall', hg, hg', fun p hm hn => ?_, rfl⟩⟩
    have hpaths : ((es ++ es').map (·.1)).Perm paths := (List.map_perm_map_iff (Option.some_injective _)).1 hperm
    obtain ⟨e, he, rfl⟩ := List.mem_map.1 (hpaths.mem_iff.2 hm)
    rcases List.mem_append.1 he with he | he
    · rw [hg'.kept _ _ (hg.filled e he)] at hn
      cases hn
    · rw [hg'.filled e he] at hn
      cases hn
  · rintro ⟨entries, h⟩
    cases answer with
    | output deleted errors =>
      obtain ⟨es, es', g, g', hes, hes', hall, hall', hg, hg', hfull, -⟩ := (reconcileDeleteObjects_ok hp).1 h
      refine ⟨deleted, errors, rfl, ?_⟩
      rw [keys_of_members hes hes']
      refine List.Perm.map _ ((List.perm_ext_iff_of_nodup ?_ hp).2 fun p => ⟨fun hm => ?_, fun hm => ?_⟩)
      · rw [List.map_append, List.nodup_append]
        refine ⟨hg.nodup, hg'.nodup, fun a ha b hb hab => ?_⟩
        obtain ⟨e, he, rfl⟩ := List.mem_map.1 ha
        obtain ⟨e', he', rfl⟩ := List.mem_map.1 hb
        have hfresh := hg'.fresh e' he'
        rw [← hab, hg.filled e he] at hfresh
        cases hfresh
      · obtain ⟨e, he, rfl⟩ := List.mem_map.1 hm
        rcases List.mem_append.1 he with he | he
        · exact hall e he
        · exact hall' e he
      · obtain ⟨x, hx⟩ := Option.ne_none_iff_exists'.1 (hfull p hm)
        rcases hg'.only p x hx with hgx | he
        · rcases hg.only p x hgx with hn | he
          · cases hn
          · exact List.mem_map.2 ⟨(p, x), List.mem_append_left _ he, rfl⟩
        · exact List.mem_map.2 ⟨(p, x), List.mem_append_right _ he, rfl⟩
    | serviceError status code message => cases h
    | responseError status text => cases h
    | failed text => cases h
    | unwired => cases h

/-- What the client hands on. -/
theorem entries_of_reconcile {answer : DeleteObjectsAnswer} (hp : paths.Nodup)
    {entries : List (Str × Except ObjectDeleteDiagnostic Unit)} (h : reconcileAnswer paths answer = .ok entries) :
    entries.map (·.1) = paths ∧
      (∀ path, (path, .ok ()) ∈ entries → Exchange.Deletes ⟨paths, answer⟩ path) ∧
      ∀ path diagnostic, (path, .error diagnostic) ∈ entries → Exchange.Rejects ⟨paths, answer⟩ path diagnostic := by
  cases answer with
  | output deleted errors =>
    obtain ⟨es, es', g, g', hes, hes', -, -, hg, hg', hfull, rfl⟩ := (reconcileDeleteObjects_ok hp).1 h
    have hmem : ∀ p x, (p, x) ∈ paths.map (fun p => (p, (g' p).getD (.ok ()))) → (p, x) ∈ es ∨ (p, x) ∈ es' := by
      intro p x hm
      obtain ⟨q, hq, heq⟩ := List.mem_map.1 hm
      obtain ⟨y, hy⟩ := Option.ne_none_iff_exists'.1 (hfull q hq)
      rw [hy, Option.getD_some] at heq
      cases heq
      rcases hg'.only p x hy with hgx | he
      · rcases hg.only p x hgx with hn | he
        · cases hn
        · exact .inl he
      · exact .inr he
    have hdeleted : ∀ p x, (p, x) ∈ es → some p ∈ deleted ∧ x = .ok () := by
      intro p x he
      have hm : (some p, x) ∈ (membersOf deleted errors).1 := hes ▸ List.mem_map.2 ⟨(p, x), he, rfl⟩
      obtain ⟨key, hkey, heq⟩ := List.mem_map.1 hm
      cases heq
      exact ⟨hkey, rfl⟩
    have hrejected : ∀ p x, (p, x) ∈ es' → ∃ entry ∈ errors, entry.key = some p ∧
        x = .error (boundedDeleteDiagnostic entry.code (entry.message.getD [])) := by
      intro p x he
      have hm : (some p, x) ∈ (membersOf deleted errors).2 := hes' ▸ List.mem_map.2 ⟨(p, x), he, rfl⟩
      obtain ⟨entry, hentry, heq⟩ := List.mem_map.1 hm
      obtain ⟨hkey, rfl⟩ := Prod.mk.inj heq
      exact ⟨entry, hentry, hkey, rfl⟩
    refine ⟨?_, fun path hm => ⟨deleted, errors, rfl, ?_⟩, fun path diagnostic hm => ⟨deleted, errors, rfl, ?_⟩⟩
    · rw [List.map_map]
      exact List.map_id _
    · rcases hmem _ _ hm with he | he
      · exact (hdeleted _ _ he).1
      · obtain ⟨entry, -, -, hx⟩ := hrejected _ _ he
        cases hx
    · rcases hmem _ _ hm with he | he
      · cases (hdeleted _ _ he).2
      · obtain ⟨entry, hentry, hkey, hx⟩ := hrejected _ _ he
        cases hx
        exact ⟨entry, hentry, hkey, rfl⟩
  | serviceError status code message => cases h
  | responseError status text => cases h
  | failed text => cases h
  | unwired => cases h

/-! ### A chunk -/

/-- What a chunk's answer comes to: a result for every path, and whether the call goes on. -/
theorem chunkResults_spec (hp : paths.Nodup) (answer : DeleteObjectsAnswer) :
    ∃ g : Str → Except DeleteObjectsFailure Unit, (chunkResults paths (reconcileAnswer paths answer)).1 = paths.map g ∧
      (∀ path ∈ paths, g path = .ok () → Exchange.Exact ⟨paths, answer⟩ ∧ Exchange.Deletes ⟨paths, answer⟩ path) ∧
      (∀ path ∈ paths, ∀ diagnostic, g path = .error (.rejected diagnostic) →
        Exchange.Rejects ⟨paths, answer⟩ path diagnostic) ∧
      (Exchange.Exact ⟨paths, answer⟩ ∧ (chunkResults paths (reconcileAnswer paths answer)).2 = none ∨
        ¬ Exchange.Exact ⟨paths, answer⟩ ∧
          (chunkResults paths (reconcileAnswer paths answer)).2 = some (Exchange.tail ⟨paths, answer⟩)) := by
  cases hr : reconcileAnswer paths answer with
  | error e =>
    have hnot : ¬ Exchange.Exact ⟨paths, answer⟩ := by
      rw [exact_iff hp, hr]
      exact nofun
    have htail : ∀ f, (match (.error e : Except DeleteObjectsRequestError (List (Str × Except ObjectDeleteDiagnostic Unit))) with
        | .error (.unsupported diagnostic) => DeleteObjectsFailure.unsupported diagnostic
        | _ => .notAttempted) = f → Exchange.tail ⟨paths, answer⟩ = f := by
      rintro _ rfl
      unfold Exchange.tail
      rw [hr]
    cases e with
    | unsupported diagnostic => exact ⟨_, rfl, nofun, nofun, .inr ⟨hnot, by rw [htail _ rfl]; rfl⟩⟩
    | request diagnostic => exact ⟨_, rfl, nofun, nofun, .inr ⟨hnot, by rw [htail _ rfl]; rfl⟩⟩
    | invalidResponse diagnostic => exact ⟨_, rfl, nofun, nofun, .inr ⟨hnot, by rw [htail _ rfl]; rfl⟩⟩
  | ok entries =>
    obtain ⟨hkeys, hdeleted, hrejected⟩ := entries_of_reconcile hp hr
    have hexact : Exchange.Exact ⟨paths, answer⟩ := (exact_iff hp).2 ⟨entries, hr⟩
    have hall : ∀ e ∈ entries, e.1 ∈ paths := fun e he => hkeys ▸ List.mem_map.2 ⟨e, he, rfl⟩
    obtain ⟨g, hg⟩ := @exists_filled _ (fun _ => none)
      (entries.map fun e => (e.1, e.2.mapError DeleteObjectsFailure.rejected))
      (by
        rw [List.map_map]
        exact hkeys.symm ▸ hp) fun _ _ => rfl
    have hentry : ∀ path ∈ paths, ∃ x, (path, x) ∈ entries ∧ g path = some (x.mapError .rejected) := by
      intro path hm
      rw [← hkeys] at hm
      obtain ⟨e, he, rfl⟩ := List.mem_map.1 hm
      exact ⟨e.2, he, hg.filled (e.1, e.2.mapError .rejected) (List.mem_map.2 ⟨e, he, rfl⟩)⟩
    have hcome : entries.length = paths.length ∧ (true : Bool) = true ∧ (paths.map g).all (·.isSome) := by
      refine ⟨by rw [← hkeys, List.length_map], rfl, List.all_eq_true.2 fun x hx => ?_⟩
      obtain ⟨path, hm, rfl⟩ := List.mem_map.1 hx
      obtain ⟨y, -, hy⟩ := hentry path hm
      rw [hy]
      rfl
    have hresults : chunkResults paths (.ok entries) = ((paths.map g).map (·.getD (.ok ())), none) := by
      unfold chunkResults
      dsimp only
      rw [fillSlots_eq hp hall hg]
      exact if_pos hcome
    rw [hresults, List.map_map]
    refine ⟨_, rfl, fun path hm hok => ⟨hexact, ?_⟩, fun path hm diagnostic hrej => ?_, .inl ⟨hexact, rfl⟩⟩
    · obtain ⟨x, hx, hgx⟩ := hentry path hm
      cases x with
      | ok u => exact hdeleted path hx
      | error d =>
        rw [Function.comp_apply, hgx] at hok
        cases hok
    · obtain ⟨x, hx, hgx⟩ := hentry path hm
      rw [Function.comp_apply, hgx] at hrej
      cases x with
      | ok u => cases hrej
      | error d =>
        cases hrej
        exact hrejected path _ hx

end

/-! ### The report -/

/-- What the outcomes of a call say, over the chunks it cut its keys into and the exchanges it made. -/
structure BatchReport (K : AtomicKeyspace) (chunks : List (List Str)) (outcomes : List DeleteObjectsOutcome)
    (log : List Exchange) : Prop where
  keys : outcomes.map (·.key) = chunks.flatten
  confirmed : ∀ o ∈ outcomes, o.result = .ok () →
    ∃ e ∈ log, K.root ++ o.key ∈ e.paths ∧ e.Exact ∧ e.Deletes (K.root ++ o.key)
  rejected : ∀ o ∈ outcomes, ∀ diagnostic, o.result = .error (.rejected diagnostic) →
    ∃ e ∈ log, K.root ++ o.key ∈ e.paths ∧ e.Rejects (K.root ++ o.key) diagnostic
  untrusted : ∀ e ∈ log, ¬ e.Exact → ∀ o ∈ outcomes, K.root ++ o.key ∈ e.paths → o.result ≠ .ok ()
  /-- The chunks that were sent, and after the first one whose answer is not exact, the rest that was not. -/
  stops : ∃ sent rest, chunks = sent ++ rest ∧ log.map (·.paths) = sent.map (List.map (K.root ++ ·)) ∧
    (∀ e ∈ log.dropLast, e.Exact) ∧
    ((rest = [] ∧ ∀ e ∈ log.getLast?, e.Exact) ∨ ∃ e ∈ log.getLast?, ¬ e.Exact ∧
      ∀ o ∈ outcomes, o.key ∈ rest.flatten → o.result = .error e.tail ∧ ∀ e' ∈ log, K.root ++ o.key ∉ e'.paths)

section
variable {K : AtomicKeyspace} {answers : ℕ → DeleteObjectsAnswer} {chunk : List Str} {chunks : List (List Str)}
  {start log : List Exchange} {outcomes : List DeleteObjectsOutcome}

theorem zipWith_outcomes (g : Str → Except DeleteObjectsFailure Unit) :
    chunk.zipWith DeleteObjectsOutcome.mk ((chunk.map (K.root ++ ·)).map g) = chunk.map fun key => ⟨key, g (K.root ++ key)⟩ := by
  rw [List.map_map, List.zipWith_map_right, List.zipWith_self]
  rfl

/-- A call that stops at its first chunk. -/
theorem batchReport_stop {e : Exchange} {g : Str → Except DeleteObjectsFailure Unit}
    (hn : (chunk ++ chunks.flatten).Nodup) (hpaths : e.paths = chunk.map (K.root ++ ·))
    (hok : ∀ path ∈ e.paths, g path = .ok () → e.Exact ∧ e.Deletes path)
    (hrej : ∀ path ∈ e.paths, ∀ diagnostic, g path = .error (.rejected diagnostic) → e.Rejects path diagnostic)
    (hnot : ¬ e.Exact) :
    BatchReport K (chunk :: chunks) (chunk.map (fun key => ⟨key, g (K.root ++ key)⟩) ++
      chunks.flatten.map fun key => ⟨key, .error e.tail⟩) [e] := by
  have hsent : ∀ key ∈ chunk, K.root ++ key ∈ e.paths := fun key hm => hpaths ▸ List.mem_map.2 ⟨key, hm, rfl⟩
  have hunsent : ∀ key ∈ chunks.flatten, K.root ++ key ∉ e.paths := by
    intro key hm hp
    rw [hpaths] at hp
    obtain ⟨key', hm', heq⟩ := List.mem_map.1 hp
    rw [List.append_cancel_left heq] at hm'
    exact (List.nodup_append.1 hn).2.2 key hm' key hm rfl
  have htail : ∀ d, e.tail ≠ .rejected d := by
    intro d
    unfold Exchange.tail
    split
    · exact nofun
    · exact nofun
  have hcases : ∀ o ∈ chunk.map (fun key => (⟨key, g (K.root ++ key)⟩ : DeleteObjectsOutcome)) ++
      chunks.flatten.map (fun key => ⟨key, .error e.tail⟩),
      (o.key ∈ chunk ∧ o.result = g (K.root ++ o.key)) ∨ (o.key ∈ chunks.flatten ∧ o.result = .error e.tail) := by
    intro o ho
    rcases List.mem_append.1 ho with ho | ho
    · obtain ⟨key, hm, rfl⟩ := List.mem_map.1 ho
      exact .inl ⟨hm, rfl⟩
    · obtain ⟨key, hm, rfl⟩ := List.mem_map.1 ho
      exact .inr ⟨hm, rfl⟩
  refine ⟨?_, fun o ho hres => ?_, fun o ho d hres => ?_, fun e' he hnot' o ho hp hres => ?_, ?_⟩
  · rw [List.map_append, List.map_map, List.map_map]
    exact congrArg₂ _ (List.map_id _) (List.map_id _)
  · rcases hcases o ho with ⟨hm, hr⟩ | ⟨-, hr⟩
    · exact absurd (hok _ (hsent _ hm) (hr ▸ hres)).1 hnot
    · rw [hr] at hres
      cases hres
  · rcases hcases o ho with ⟨hm, hr⟩ | ⟨-, hr⟩
    · exact ⟨e, List.mem_singleton_self e, hsent _ hm, hrej _ (hsent _ hm) d (hr ▸ hres)⟩
    · rw [hr] at hres
      exact absurd (Except.error.inj hres) (htail d)
  · obtain rfl := List.mem_singleton.1 he
    rcases hcases o ho with ⟨hm, hr⟩ | ⟨hm, -⟩
    · exact hnot (hok _ hp (hr ▸ hres)).1
    · exact hunsent _ hm hp
  · refine ⟨[chunk], chunks, rfl, by rw [List.map_singleton, List.map_singleton, hpaths], nofun,
      .inr ⟨e, rfl, hnot, fun o ho hm => ?_⟩⟩
    rcases hcases o ho with ⟨hm', -⟩ | ⟨-, hr⟩
    · exact absurd rfl ((List.nodup_append.1 hn).2.2 _ hm' _ hm)
    · exact ⟨hr, fun e' he => List.mem_singleton.1 he ▸ hunsent _ hm⟩

/-- A call that goes on after its first chunk. -/
theorem batchReport_cons {e : Exchange} {g : Str → Except DeleteObjectsFailure Unit}
    (hn : (chunk ++ chunks.flatten).Nodup) (hpaths : e.paths = chunk.map (K.root ++ ·))
    (hok : ∀ path ∈ e.paths, g path = .ok () → e.Exact ∧ e.Deletes path)
    (hrej : ∀ path ∈ e.paths, ∀ diagnostic, g path = .error (.rejected diagnostic) → e.Rejects path diagnostic)
    (hexact : e.Exact) (h : BatchReport K chunks outcomes log) :
    BatchReport K (chunk :: chunks) (chunk.map (fun key => ⟨key, g (K.root ++ key)⟩) ++ outcomes) (e :: log) := by
  obtain ⟨sent, rest, hcut, hlog, hinit, hlast⟩ := h.stops
  have hsent : ∀ key ∈ chunk, K.root ++ key ∈ e.paths := fun key hm => hpaths ▸ List.mem_map.2 ⟨key, hm, rfl⟩
  have hflat : ∀ o ∈ outcomes, o.key ∈ chunks.flatten := fun o ho => h.keys ▸ List.mem_map.2 ⟨o, ho, rfl⟩
  have hapart : ∀ key ∈ chunk, key ∉ chunks.flatten := fun key hm hm' => (List.nodup_append.1 hn).2.2 key hm key hm' rfl
  have hother : ∀ key ∈ chunk, ∀ e' ∈ log, K.root ++ key ∉ e'.paths := by
    intro key hm e' he hp
    have hpart : e'.paths ∈ sent.map (List.map (K.root ++ ·)) := hlog ▸ List.mem_map.2 ⟨e', he, rfl⟩
    obtain ⟨part, hpart, heq⟩ := List.mem_map.1 hpart
    rw [← heq] at hp
    obtain ⟨key', hm', hroot⟩ := List.mem_map.1 hp
    rw [List.append_cancel_left hroot] at hm'
    exact hapart key hm (List.mem_flatten.2 ⟨part, hcut ▸ List.mem_append_left _ hpart, hm'⟩)
  have hunsent : ∀ key ∈ chunks.flatten, K.root ++ key ∉ e.paths := by
    intro key hm hp
    rw [hpaths] at hp
    obtain ⟨key', hm', heq⟩ := List.mem_map.1 hp
    rw [List.append_cancel_left heq] at hm'
    exact hapart key hm' hm
  have hcases : ∀ o ∈ chunk.map (fun key => (⟨key, g (K.root ++ key)⟩ : DeleteObjectsOutcome)) ++ outcomes,
      (o.key ∈ chunk ∧ o.result = g (K.root ++ o.key)) ∨ o ∈ outcomes := by
    intro o ho
    rcases List.mem_append.1 ho with ho | ho
    · obtain ⟨key, hm, rfl⟩ := List.mem_map.1 ho
      exact .inl ⟨hm, rfl⟩
    · exact .inr ho
  refine ⟨?_, fun o ho hres => ?_, fun o ho d hres => ?_, fun e' he hnot o ho hp => ?_, ?_⟩
  · rw [List.map_append, List.map_map, h.keys]
    exact congrArg (· ++ chunks.flatten) (List.map_id _)
  · rcases hcases o ho with ⟨hm, hr⟩ | ho
    · obtain ⟨hexact, hdel⟩ := hok _ (hsent _ hm) (hr ▸ hres)
      exact ⟨e, List.mem_cons_self, hsent _ hm, hexact, hdel⟩
    · obtain ⟨e', he, hp⟩ := h.confirmed o ho hres
      exact ⟨e', List.mem_cons_of_mem _ he, hp⟩
  · rcases hcases o ho with ⟨hm, hr⟩ | ho
    · exact ⟨e, List.mem_cons_self, hsent _ hm, hrej _ (hsent _ hm) d (hr ▸ hres)⟩
    · obtain ⟨e', he, hp⟩ := h.rejected o ho d hres
      exact ⟨e', List.mem_cons_of_mem _ he, hp⟩
  · rcases List.mem_cons.1 he with rfl | he
    · exact absurd hexact hnot
    · rcases hcases o ho with ⟨hm, -⟩ | ho
      · exact absurd hp (hother _ hm e' he)
      · exact h.untrusted e' he hnot o ho hp
  · refine ⟨chunk :: sent, rest, by rw [hcut, List.cons_append], by rw [List.map_cons, List.map_cons, hlog, hpaths], ?_, ?_⟩
    · cases log with
      | nil => exact nofun
      | cons e₁ log =>
        rw [List.dropLast_cons_cons]
        exact List.forall_mem_cons.2 ⟨hexact, hinit⟩
    · cases log with
      | nil =>
        rcases hlast with ⟨rfl, -⟩ | ⟨e', he, -⟩
        · refine .inl ⟨rfl, fun e' he => ?_⟩
          cases he
          exact hexact
        · cases he
      | cons e₁ log =>
        rw [List.getLast?_cons_cons]
        refine hlast.imp_right ?_
        rintro ⟨e', he, hnot, hrest⟩
        refine ⟨e', he, hnot, fun o ho hm => ?_⟩
        have hm' : o.key ∈ chunks.flatten := by
          rw [hcut, List.flatten_append]
          exact List.mem_append_right _ hm
        rcases hcases o ho with ⟨hin, -⟩ | ho
        · exact absurd hm' (hapart _ hin)
        · obtain ⟨hr, hno⟩ := hrest o ho hm
          exact ⟨hr, List.forall_mem_cons.2 ⟨hunsent _ hm', hno⟩⟩

theorem eval_deleteChunks {results : List (Except DeleteObjectsFailure Unit)}
    (hr : chunkResults (chunk.map (K.root ++ ·)) (reconcileAnswer (chunk.map (K.root ++ ·)) (answers start.length)) = (results, none)) :
    (deleteChunks K (chunk :: chunks)).run.eval (serveBatch answers) start =
      (deleteChunks K chunks >>= fun tail => pure (chunk.zipWith DeleteObjectsOutcome.mk results ++ tail) :
        StoreOp DeleteObjectsInputError (List DeleteObjectsOutcome)).run.eval (serveBatch answers)
        (start ++ [⟨chunk.map (K.root ++ ·), answers start.length⟩]) := by
  rw [deleteChunks, Op.run_ask_bind, Prog.eval]
  simp only [serveBatch, hr]

theorem eval_deleteChunks_stop {results : List (Except DeleteObjectsFailure Unit)} {failure : DeleteObjectsFailure}
    (hr : chunkResults (chunk.map (K.root ++ ·)) (reconcileAnswer (chunk.map (K.root ++ ·)) (answers start.length)) =
      (results, some failure)) :
    (deleteChunks K (chunk :: chunks)).run.eval (serveBatch answers) start =
      (some (.ok (chunk.zipWith DeleteObjectsOutcome.mk results ++ chunks.flatten.map fun key => ⟨key, .error failure⟩)),
        start ++ [⟨chunk.map (K.root ++ ·), answers start.length⟩]) := by
  rw [deleteChunks, Op.run_ask_bind, Prog.eval]
  simp only [serveBatch, hr]
  rfl

/-- The chunks of an input, one after the other: each has its exchange, and its own part of the report. -/
theorem deleteChunks_report (hn : chunks.flatten.Nodup) :
    ∃ outcomes log, (deleteChunks K chunks).run.eval (serveBatch answers) start = (some (.ok outcomes), start ++ log) ∧
      BatchReport K chunks outcomes log := by
  induction chunks generalizing start with
  | nil =>
    have hnil : ∀ {α : Type} {p : α → Prop}, ∀ a ∈ ([] : List α), p a := fun _ h => absurd h List.not_mem_nil
    refine ⟨[], [], by rw [List.append_nil]; rfl, rfl, hnil, hnil, hnil, [], [], rfl, rfl, hnil, .inl ⟨rfl, fun _ h => by cases h⟩⟩
  | cons chunk chunks ih =>
    rw [List.flatten_cons] at hn
    have hp : (chunk.map (K.root ++ ·)).Nodup := (List.nodup_append.1 hn).1.map fun _ _ => List.append_cancel_left
    obtain ⟨g, hresults, hok, hrej, hstop⟩ := chunkResults_spec hp (answers start.length)
    let e : Exchange := ⟨chunk.map (K.root ++ ·), answers start.length⟩
    rcases hstop with ⟨hexact, hstop⟩ | ⟨hnot, hstop⟩
    · obtain ⟨outcomes, log, htail, hreport⟩ := @ih (start ++ [e]) (List.nodup_append.1 hn).2.1
      refine ⟨_, e :: log, (eval_deleteChunks (Prod.ext hresults hstop)).trans ?_, batchReport_cons hn rfl hok hrej hexact hreport⟩
      rw [zipWith_outcomes, Op.eval_bind_of_ok htail, List.append_assoc]
      rfl
    · refine ⟨_, [e], (eval_deleteChunks_stop (Prod.ext hresults hstop)).trans ?_, batchReport_stop hn rfl hok hrej hnot⟩
      rw [zipWith_outcomes]

end

/-- Admitted keys are different. -/
theorem nodup_of_admitObjects {K : AtomicKeyspace} {seen keys : List Str} (h : admitObjects K seen keys = .ok ()) :
    keys.Nodup ∧ ∀ key ∈ keys, key ∉ seen := by
  induction keys generalizing seen with
  | nil => exact ⟨List.nodup_nil, nofun⟩
  | cons key keys ih =>
    rw [admitObjects] at h
    split at h
    · cases h
    split at h
    · cases h
    split at h
    · cases h
    next hseen =>
    obtain ⟨hnodup, hall⟩ := ih h
    refine ⟨List.nodup_cons.2 ⟨fun hm => hall key hm (List.mem_append_right _ (List.mem_singleton_self key)), hnodup⟩, ?_⟩
    exact List.forall_mem_cons.2 ⟨hseen, fun key' hm hin => hall key' hm (List.mem_append_left _ hin)⟩

end YeetzS3.Keyspace
