import YeetzS3.Store

/-!
# Regions of the bucket

A program that names only paths of a region cannot change anything outside it, and cannot tell two buckets apart
that agree on it. Both are facts about one request (`Within.frame`, `Within.agree`), and then about whole runs.
-/

namespace YeetzS3

open Conc

/-- A set of paths. -/
abbrev Region := Str → Prop

/-- The request reads and changes nothing outside the region. -/
def Req.Within (R : Region) : Req → Prop
  | .get p => R (pathFrom p)
  | .put p _ _ => R (pathFrom p)
  | .delete p => R (pathFrom p)
  | .deleteIf p _ => R p
  | .deleteObjects ps => ∀ p ∈ ps, R p
  | .list pfx _ _ => ∀ k, (pathFrom pfx ++ ['/']).isPrefixOf k = true → R k
  | .listSizes pfx _ _ => ∀ k, (pathFrom pfx ++ ['/']).isPrefixOf k = true → R k

/-- The buckets have the same objects in the region. -/
def Agree (R : Region) (s s' : Store) : Prop := ∀ p, R p → s'.lookup p = s.lookup p

namespace Agree

variable {R R' : Region} {s s' s'' : Store} {p : Str} {o : Object}

theorem refl (s : Store) : Agree R s s := fun _ _ => rfl

theorem symm (h : Agree R s s') : Agree R s' s := fun p hp => (h p hp).symm

theorem trans (h : Agree R s s') (h' : Agree R s' s'') : Agree R s s'' := fun p hp => (h' p hp).trans (h p hp)

theorem mono (h : Agree R s s') (hr : ∀ p, R' p → R p) : Agree R' s s' := fun p hp => h p (hr p hp)

theorem insert (h : Agree R s s') : Agree R (AList.insert p o s) (AList.insert p o s') := by
  intro q hq
  by_cases hpq : q = p
  · rw [hpq, AList.lookup_insert, AList.lookup_insert]
  · rw [AList.lookup_insert_ne hpq, AList.lookup_insert_ne hpq, h q hq]

theorem erase (h : Agree R s s') : Agree R (AList.erase p s) (AList.erase p s') := by
  intro q hq
  by_cases hpq : q = p
  · rw [hpq, AList.lookup_erase, AList.lookup_erase]
  · rw [AList.lookup_erase_ne hpq, AList.lookup_erase_ne hpq, h q hq]

theorem foldl_erase {ps : List Str} (h : Agree R s s') :
    Agree R (ps.foldl (fun s p => s.erase p) s) (ps.foldl (fun s p => s.erase p) s') := by
  induction ps generalizing s s' with
  | nil => exact h
  | cons p ps ih => exact ih h.erase

theorem of_insert (hp : ¬ R p) : Agree R s (AList.insert p o s) := fun _ hq =>
  AList.lookup_insert_ne fun h => hp (h ▸ hq)

theorem of_erase (hp : ¬ R p) : Agree R s (AList.erase p s) := fun _ hq =>
  AList.lookup_erase_ne fun h => hp (h ▸ hq)

theorem of_foldl_erase {ps : List Str} (hp : ∀ p ∈ ps, ¬ R p) : Agree R s (ps.foldl (fun s p => s.erase p) s) := by
  induction ps generalizing s with
  | nil => exact .refl s
  | cons p ps ih =>
    exact (of_erase (hp p List.mem_cons_self)).trans (ih fun q hq => hp q (List.mem_cons_of_mem _ hq))

theorem found (h : Agree R s s') (hp : R p) : s'.found p = s.found p := by
  rw [Store.found, Store.found, h p hp]

theorem accepts (h : Agree R s s') (hp : R p) (c : Option Etag) : s'.accepts p c = s.accepts p c := by
  cases c <;> rw [Store.accepts, Store.accepts, h p hp]

theorem sized (h : Agree R s s') (hp : R p) : s'.sized p = s.sized p := by
  rw [Store.sized, Store.sized, h p hp]

theorem mem_keys (h : Agree R s s') (hp : R p) : p ∈ s'.keys ↔ p ∈ s.keys := by
  rw [← AList.mem_keys, ← AList.mem_keys, ← AList.lookup_isSome, ← AList.lookup_isSome, h p hp]

/-- A list shows the same keys. -/
theorem listing (h : Agree R s s') {pfx : Str} (hp : ∀ k, (pathFrom pfx ++ ['/']).isPrefixOf k = true → R k)
    (after : Option Str) : s'.listing pfx after = s.listing pfx after := by
  have hperm : s'.keys.filter (fun k => (pathFrom pfx ++ ['/']).isPrefixOf k && after.all (pathFrom · < k)) |>.Perm
      (s.keys.filter fun k => (pathFrom pfx ++ ['/']).isPrefixOf k && after.all (pathFrom · < k)) := by
    refine (List.perm_ext_iff_of_nodup (s'.keys_nodup.filter _) (s.keys_nodup.filter _)).2 fun k => ?_
    simp only [List.mem_filter, Bool.and_eq_true]
    constructor
    · rintro ⟨hk, hpre, ha⟩
      exact ⟨(h.mem_keys (hp k hpre)).1 hk, hpre, ha⟩
    · rintro ⟨hk, hpre, ha⟩
      exact ⟨(h.mem_keys (hp k hpre)).2 hk, hpre, ha⟩
  exact List.Perm.eq_of_pairwise' (List.pairwise_insertionSort ..) (List.pairwise_insertionSort ..)
    (((List.perm_insertionSort _ _).trans hperm).trans (List.perm_insertionSort _ _).symm)

end Agree

/-- What is listed under a prefix begins with it. -/
theorem Store.prefix_of_mem_listing {s : Store} {pfx k : Str} {after : Option Str} (h : k ∈ s.listing pfx after) :
    (pathFrom pfx ++ ['/']).isPrefixOf k = true := by
  have := List.mem_filter.1 ((List.mem_insertionSort _).1 h)
  exact (Bool.and_eq_true _ _ ▸ this.2).1

section
variable {R R' : Region} {B : Backend} {s s' t : Store} {r : Req} {x : Resp r}

/-- A request changes nothing outside its region. -/
theorem Req.Within.frame (h : r.Within R) (hd : ∀ p, R p → ¬ R' p) (hx : B.exec s r x s') : Agree R' s s' := by
  cases r with
  | get p => exact (Backend.get_store hx) ▸ .refl _
  | put p d c =>
    obtain rfl | ⟨-, t, -, rfl⟩ := Backend.put_store hx
    · exact .refl _
    · exact .of_insert (hd _ h)
  | delete p =>
    obtain rfl | rfl := Backend.delete_store hx
    · exact .refl _
    · exact .of_erase (hd _ h)
  | deleteIf p e =>
    obtain rfl | ⟨-, rfl⟩ := Backend.deleteIf_store hx
    · exact .refl _
    · exact .of_erase (hd _ h)
  | deleteObjects ps =>
    obtain ⟨rfl, -⟩ | ⟨-, gone, hg, rfl⟩ := hx
    · exact .of_foldl_erase fun p hp => hd p (h p hp)
    · exact .of_foldl_erase fun p hp => hd p (h p (hg hp))
  | list pfx after n => exact (Backend.list_store hx) ▸ .refl _
  | listSizes pfx after n => exact (Backend.listSizes_store hx) ▸ .refl _

/-- What a request may do on one bucket it may do on every bucket that agrees with it. -/
theorem Req.Within.agree (h : r.Within R) (ha : Agree R s s') (hx : B.exec s r x t) :
    ∃ t', B.exec s' r x t' ∧ Agree R t t' := by
  cases r with
  | get p =>
    obtain ⟨rfl, hx⟩ := hx
    refine ⟨s', ⟨rfl, ?_⟩, ha⟩
    rwa [ha.found h]
  | put p d c =>
    obtain ⟨hc, e, he, rfl, hx⟩ | ⟨hc, rfl, hx⟩ | ⟨hf, rfl, hx⟩ := hx
    · exact ⟨_, .inl ⟨(ha.accepts h c).trans hc, e, he, rfl, hx⟩, ha.insert⟩
    · exact ⟨s', .inr (.inl ⟨(ha.accepts h c).trans hc, rfl, hx⟩), ha⟩
    · exact ⟨s', .inr (.inr ⟨hf, rfl, hx⟩), ha⟩
  | delete p =>
    obtain ⟨rfl, hx⟩ | ⟨hf, rfl, hx⟩ := hx
    · exact ⟨_, .inl ⟨rfl, hx⟩, ha.erase⟩
    · exact ⟨s', .inr ⟨hf, rfl, hx⟩, ha⟩
  | deleteIf p e =>
    obtain ⟨hc, rfl, hx⟩ | ⟨hc, rfl, hx⟩ | ⟨hf, rfl, hx⟩ := hx
    · exact ⟨_, .inl ⟨(ha.accepts h _).trans hc, rfl, hx⟩, ha.erase⟩
    · refine ⟨s', .inr (.inl ⟨(ha.accepts h _).trans hc, rfl, ?_⟩), ha⟩
      rwa [ha p h]
    · exact ⟨s', .inr (.inr ⟨hf, rfl, hx⟩), ha⟩
  | deleteObjects ps =>
    obtain ⟨rfl, hx⟩ | ⟨hf, gone, hg, rfl⟩ := hx
    · exact ⟨_, .inl ⟨rfl, hx⟩, ha.foldl_erase⟩
    · exact ⟨_, .inr ⟨hf, gone, hg, rfl⟩, ha.foldl_erase⟩
  | list pfx after n =>
    obtain ⟨rfl, hx⟩ := hx
    refine ⟨s', ⟨rfl, ?_⟩, ha⟩
    rwa [ha.listing h]
  | listSizes pfx after n =>
    obtain ⟨rfl, hx⟩ := hx
    refine ⟨s', ⟨rfl, ?_⟩, ha⟩
    have hmap : ∀ ks : List Str, (∀ k ∈ ks, k ∈ t.listing pfx after) → ks.map s'.sized = ks.map t.sized := fun ks hk =>
      List.map_congr_left fun k hks => ha.sized (h k (Store.prefix_of_mem_listing (hk k hks)))
    rw [ha.listing h]
    rcases hx with hx | ⟨ho, ks, hs, hl, hx⟩ | hx
    · exact .inl (hx.trans (congrArg _ (hmap _ fun k hk => List.mem_of_mem_take hk).symm))
    · exact .inr (.inl ⟨ho, ks, hs, hl, hx.trans (congrArg _ (hmap ks fun k hk => hs.subset hk).symm)⟩)
    · exact .inr (.inr hx)

variable {α : Type} {p : Prog Req Resp α} {a : α}

/-- A program changes nothing outside its region. -/
theorem Prog.frame_of_within (hp : p.Every (·.Within R) fun _ => True) (hd : ∀ p, R p → ¬ R' p)
    (hr : p.Runs B.exec s a s') : Agree R' s s' := by
  induction hr with
  | ret => exact .refl _
  | call hx _ ih => exact (hp.1.frame hd hx).trans (ih (hp.2 _))

/-- What a program may return on one bucket it may return on every bucket that agrees with it on its region. -/
theorem Prog.agree_of_within (hp : p.Every (·.Within R) fun _ => True) (ha : Agree R s s')
    (hr : p.Runs B.exec s a t) : ∃ t', p.Runs B.exec s' a t' ∧ Agree R t t' := by
  induction hr generalizing s' with
  | ret => exact ⟨s', .ret, ha⟩
  | call hx _ ih =>
    obtain ⟨t', hx', ha'⟩ := hp.1.agree ha hx
    obtain ⟨t'', hr', ha''⟩ := ih (hp.2 _) ha'
    exact ⟨t'', .call hx' hr', ha''⟩

end

/-! ### What answers tell -/

/-- A reported etag is one the backend may have given the content it stands beside. -/
def Backend.Answers (B : Backend) : (r : Req) → Resp r → Prop
  | .get _, x => ∀ d e, x = .ok (d, some e) → B.tags d e
  | .put _ d _, x => ∀ e, x = .ok (some e) → B.tags d e
  | .delete _, _ | .deleteIf _ _, _ | .deleteObjects _, _ | .list _ _ _, _ | .listSizes _ _ _, _ => True

theorem Backend.answers_of_exec {B : Backend} {s s' : Store} {r : Req} {x : Resp r} (ht : s.Tagged B)
    (hx : B.exec s r x s') : B.Answers r x := by
  cases r with
  | get p =>
    rintro d e rfl
    obtain ⟨o, ho, rfl, he⟩ := get_ok hx
    exact he e rfl ▸ ht _ o ho
  | put p d c =>
    rintro e rfl
    obtain ⟨-, t, htag, -, he⟩ := put_ok hx
    exact he e rfl ▸ htag
  | _ => trivial

/-! ### Programs that only read -/

/-- A request that changes nothing. -/
def Req.Looks : Req → Prop
  | .get _ | .list _ _ _ | .listSizes _ _ _ => True
  | .put _ _ _ | .delete _ | .deleteIf _ _ | .deleteObjects _ => False

/-- What the bucket answers, in full. -/
def Store.answers (s : Store) (r : Req) : Resp r := (s.serve contentTag r).1

/-- Every backend may answer a program that only reads in full. -/
theorem runs_of_answer {B : Backend} {s : Store} {α : Type} {p : Prog Req Resp α} {a : α} (hp : p.Every Req.Looks fun _ => True)
    (h : p.answer s.answers = some a) : p.Runs B.exec s a s := by
  induction p with
  | ret b =>
    cases h
    exact .ret
  | call r k ih =>
    refine .call ?_ (ih _ (hp.2 _) h)
    cases r with
    | get _ | list _ _ _ | listSizes _ _ _ => exact ⟨rfl, .inl rfl⟩
    | _ => exact hp.1.elim
  | stop => cases h

/-- On a backend that fails nothing and omits nothing, a program that only reads has one run. -/
theorem runs_iff_answer {B : Backend} {s t : Store} {α : Type} {p : Prog Req Resp α} {a : α}
    (hf : ¬ B.faults) (ho : ¬ B.omits) (hp : p.Every Req.Looks fun _ => True) :
    p.Runs B.exec s a t ↔ t = s ∧ p.answer s.answers = some a := by
  induction p with
  | ret b =>
    rw [Prog.runs_ret, Prog.answer_ret, Option.some_inj, and_comm, eq_comm (a := a)]
  | call r k ih =>
    have hx : ∀ x u, B.exec s r x u ↔ u = s ∧ x = s.answers r := by
      intro x u
      cases r with
      | get p =>
        constructor
        · rintro ⟨rfl, h | ⟨h, -⟩⟩
          · exact ⟨rfl, h⟩
          · exact absurd h hf
        · rintro ⟨rfl, h⟩
          exact ⟨rfl, .inl h⟩
      | list pfx after n =>
        constructor
        · rintro ⟨rfl, h | ⟨h, -⟩ | ⟨h, -⟩⟩
          · exact ⟨rfl, h⟩
          · exact absurd h ho
          · exact absurd h hf
        · rintro ⟨rfl, h⟩
          exact ⟨rfl, .inl h⟩
      | listSizes pfx after n =>
        constructor
        · rintro ⟨rfl, h | ⟨h, -⟩ | ⟨h, -⟩⟩
          · exact ⟨rfl, h⟩
          · exact absurd h ho
          · exact absurd h hf
        · rintro ⟨rfl, h⟩
          exact ⟨rfl, .inl h⟩
      | _ => exact hp.1.elim
    rw [Prog.runs_call, Prog.answer_call, ← ih _ (hp.2 _)]
    constructor
    · rintro ⟨x, u, h, hk⟩
      obtain ⟨rfl, rfl⟩ := (hx x u).1 h
      exact hk
    · exact fun hk => ⟨_, s, (hx _ _).2 ⟨rfl, rfl⟩, hk⟩
  | stop => simp [Prog.answer]

/-! ### Programs alone -/

section
variable {etag : Bytes → Etag} {s t : Store}

theorem eval_bind {α β : Type} {σ : Type} {serve : σ → (r : Req) → Resp r × σ} {p : Prog Req Resp α}
    {f : α → Prog Req Resp β} {s s' : σ} {a : α} (h : p.eval serve s = (some a, s')) :
    (p >>= f).eval serve s = (f a).eval serve s' := by
  induction p generalizing s with
  | ret b =>
    cases h
    rfl
  | call r k ih => exact ih _ h
  | stop => cases h

theorem eval_attempt_bind {ε ε' α β : Type} {x : StoreOp ε' α} {f : Except ε' α → StoreOp ε β} {r : Except ε' α}
    (h : x.run.eval (Store.serve etag) s = (some r, t)) :
    (Op.attempt x >>= f).run.eval (Store.serve etag) s = (f r).run.eval (Store.serve etag) t := by
  rw [Op.run_attempt_bind, eval_bind h]

theorem eval_bindE {ε α β : Type} {x : StoreOp ε α} {f : α → StoreOp ε β} {a : α}
    (h : x.run.eval (Store.serve etag) s = (some (.ok a), t)) :
    (x >>= f).run.eval (Store.serve etag) s = (f a).run.eval (Store.serve etag) t := by
  rw [ExceptT.run_bind, eval_bind h]

theorem eval_bindE_error {ε α β : Type} {x : StoreOp ε α} {f : α → StoreOp ε β} {e : ε}
    (h : x.run.eval (Store.serve etag) s = (some (.error e), t)) :
    (x >>= f).run.eval (Store.serve etag) s = (some (.error e), t) := by
  rw [ExceptT.run_bind, eval_bind h]
  rfl

theorem eval_ask_bind {ε α : Type} {r : Req} {f : Resp r → StoreOp ε α} :
    (Op.ask r >>= f).run.eval (Store.serve etag) s =
      (f (s.serve etag r).1).run.eval (Store.serve etag) (s.serve etag r).2 := rfl

theorem found_some {p : Str} {o : Object} (h : s.lookup p = some o) : s.found p = .ok (o.data, some o.etag) := by
  rw [Store.found, h]

theorem found_none {p : Str} (h : s.lookup p = none) : s.found p = .error .notFound := by
  rw [Store.found, h]

/-- A program that only reads leaves the bucket as it is. -/
theorem eval_looks {α : Type} {p : Prog Req Resp α} (hp : p.Every Req.Looks fun _ => True) :
    (p.eval (Store.serve etag) s).2 = s := by
  induction p with
  | ret a => rfl
  | call r k ih =>
    have hr : (s.serve etag r).2 = s := by
      cases r with
      | get _ | list _ _ _ | listSizes _ _ _ => rfl
      | _ => exact hp.1.elim
    rw [Prog.eval, hr]
    exact ih _ (hp.2 _)
  | stop => rfl

end

end YeetzS3
