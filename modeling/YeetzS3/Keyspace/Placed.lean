import YeetzS3.Keyspace.Landed
import YeetzS3.Keyspace.Settles

/-!
# Creations nobody interferes with

A creation of a short value that runs alone is one put-if-absent: its bytes are checked against the counter they were stamped
from, so they are not evicted again.
-/

namespace YeetzS3.Keyspace

open Conc

variable {O : Outside} {K : AtomicKeyspace} {B : Backend} {s t : Store} {key : Str} {value : Bytes} {fuel : ℕ}

/-- The counter of a key, when it can be read. -/
def AtomicKeyspace.counter (K : AtomicKeyspace) (s : Store) (key : Str) : Except KeyspaceError UInt64 :=
  match s.lookup (pathFrom (K.root ++ incarnationKey key)) with
  | none => .ok 0
  | some o =>
    match u64OfBytes o.data with
    | some n => .ok n
    | none => .error (.valueEnvelopeMalformed (incarnationKey key))

theorem answer_currentIncarnation : (currentIncarnation K key).run.answer s.answers = some (K.counter s key) := by
  show ((Op.ask (.get (K.root ++ incarnationKey key)) >>= _ : KeyOp UInt64).run).answer s.answers = _
  rw [Op.run_ask_bind, Prog.answer_call, Store.answers, Store.serve, Store.found, AtomicKeyspace.counter]
  cases s.lookup (pathFrom (K.root ++ incarnationKey key)) with
  | none => rfl
  | some o => cases hn : u64OfBytes o.data <;> simp [hn, counterErrors]

theorem careful_currentIncarnation : Careful Unserved B s (currentIncarnation K key).run := by
  refine careful_get ⟨_, ⟨_, rfl⟩, rfl⟩ (fun _ _ _ => .inl rfl) ?_
  unfold Store.found
  split
  · split <;> trivial
  · trivial
  · trivial

theorem ends_currentIncarnation :
    (currentIncarnation K key).run.Ends B.exec (fun r t => t = s ∧ InFull Unserved B (K.counter s key) r) s :=
  careful_currentIncarnation.ends answer_currentIncarnation

theorem counter_insert {o : Object} (hv : ValidPath key) : K.counter (s.insert (K.root ++ key) o) key = K.counter s key := by
  have hne : pathFrom (K.root ++ incarnationKey key) ≠ K.root ++ key := by
    rw [pathFrom_incarnationKey hv]
    intro h
    have := congrArg List.length (List.append_cancel_left h)
    rw [incarnationKey_length] at this
    omega
  rw [AtomicKeyspace.counter, AList.lookup_insert_ne hne, AtomicKeyspace.counter]

/-- The object holds the value inline, as it was created. -/
def Holds (o : Object) (value : Bytes) : Prop := ∃ n, o.data = (ValueEnvelope.mk n 0 value).encode

/-- A creation may succeed at the key. -/
structure Fit (K : AtomicKeyspace) (s : Store) (key : Str) : Prop where
  opened : Open key
  path : K.objectKey key = .ok (K.root ++ key)
  counted : ∃ n, K.counter s key = .ok n

/-- How a creation of a short value ends. -/
inductive Placed (K : AtomicKeyspace) (B : Backend) (s : Store) (key : Str) (value : Bytes) : Except KeyspaceError Unit → Store → Prop where
  | landed {o : Object} (hfit : Fit K s key) (hn : s.lookup (K.root ++ key) = none) (ho : Holds o value) :
      Placed K B s key value (.ok ()) (s.insert (K.root ++ key) o)
  | taken (hfit : Fit K s key) (h : s.lookup (K.root ++ key) ≠ none) : Placed K B s key value (.error (.alreadyExists key)) s
  | refused {e : KeyspaceError} (he : ∀ k, e ≠ .alreadyExists k) (h : B.faults ∨ ¬ Fit K s key) : Placed K B s key value (.error e) s
  | unknown {o : Object} {e : KeyspaceError} (hn : s.lookup (K.root ++ key) = none) (ho : Holds o value) (he : ∀ k, e ≠ .alreadyExists k)
      (hf : B.faults) : Placed K B s key value (.error e) (s.insert (K.root ++ key) o)

theorem counter_error {e : KeyspaceError} (h : K.counter s key = .error e) (k : Str) : e ≠ .alreadyExists k := by
  unfold AtomicKeyspace.counter at h
  split at h
  · cases h
  · split at h <;> cases h
    nofun

theorem unserved_ne {e : KeyspaceError} (h : Unserved e) (k : Str) : e ≠ .alreadyExists k := by
  obtain ⟨op, rfl⟩ := h
  nofun

theorem ends_createInline (ho : Open key) (hp : K.objectKey key = .ok (K.root ++ key)) (tries : ℕ) :
    (createInline K key (K.root ++ key) value (tries + 1)).run.Ends B.exec (Placed K B s key value) s := by
  have hv := (AtomicKeyspace.objectKey_ok hp).2
  have hpath : pathFrom (K.root ++ key) = K.root ++ key := pathFrom_of_valid (AtomicKeyspace.validPath_root_append hv)
  refine Prog.ends_bindE.2 (ends_currentIncarnation.imp ?_)
  rintro (e | n) t ⟨rfl, hcount⟩
  · rcases hcount with hcount | ⟨hf, e', he, hcount⟩
    · exact .refused (counter_error hcount.symm) (.inr fun hfit => by
      obtain ⟨n, hn⟩ := hfit.counted
      rw [hn] at hcount
      cases hcount)
    · cases hcount
      exact .refused (unserved_ne he) (.inl hf)
  have hn : K.counter t key = .ok n := by
    rcases hcount with hcount | ⟨-, e, -, hcount⟩
    · exact hcount.symm
    · cases hcount
  have hfit : Fit K t key := ⟨ho, hp, n, hn⟩
  rintro x t' (⟨ha, e, -, rfl, hx⟩ | ⟨ha, rfl, rfl⟩ | ⟨hf, rfl, rfl⟩)
  · rw [hpath] at ha ⊢
    have habsent := Store.accepts_none.1 ha
    have hholds : Holds ⟨(ValueEnvelope.mk n 0 value).encode, e⟩ value := ⟨n, rfl⟩
    have hchecked : ∀ (g : StaleEra → KeyOp Unit) (y : Etag), g .fresh = pure () →
        (evictStaleEra K key (K.root ++ key) n (ValueEnvelope.mk n 0 value).encode >>= g).run.Ends B.exec (Placed K B t key value)
          (t.insert (K.root ++ key) ⟨(ValueEnvelope.mk n 0 value).encode, y⟩) := by
      intro g y hg
      refine Prog.ends_bindE.2 (Prog.ends_bindE.2 (ends_currentIncarnation.imp ?_))
      rintro (e | m) u ⟨rfl, hm⟩
      · rw [counter_insert hv, hn] at hm
        rcases hm with hm | ⟨hf, e', he, hm⟩
        · cases hm
        · cases hm
          exact .unknown habsent ⟨n, rfl⟩ (unserved_ne he) hf
      · rw [counter_insert hv, hn] at hm
        have hmn : m = n := by
          rcases hm with hm | ⟨-, e, -, hm⟩
          · exact Except.ok.inj hm
          · cases hm
        dsimp only [Prog.OnOk]
        rw [if_pos hmn]
        show (g .fresh).run.Ends _ _ _
        rw [hg]
        exact .landed hfit habsent ⟨n, rfl⟩
    rcases hx with rfl | ⟨hf, rfl | rfl⟩
    · exact hchecked _ e rfl
    · exact hchecked _ e rfl
    · exact .unknown habsent hholds (fun _ h => by cases h) hf
  · have htaken : t'.lookup (K.root ++ key) ≠ none := fun h => by
      rw [hpath, Store.accepts_none.2 h] at ha
      cases ha
    exact .taken hfit htaken
  · exact .refused (fun _ h => by cases h) (.inl hf)

/-- A creation of a short value is at most one put-if-absent. -/
theorem ends_create {ids : ℕ → Bytes} (hshort : value.length ≤ inlineMax) :
    (create O K fuel key value ids).run.Ends B.exec (Placed K B s key value) s := by
  unfold create
  cases ho : ensureNotReservedKey key with
  | error e =>
    refine Placed.refused (fun k hk => ?_) (.inr fun hfit => ?_)
    · rw [hk] at ho
      unfold ensureNotReservedKey at ho
      split_ifs at ho <;> cases ho
    · have := hfit.opened
      rw [Open, ho] at this
      cases this
  | ok u =>
    have hmax : ¬ value.length > maxLogicalBytes := by
      have : inlineMax ≤ maxLogicalBytes := by decide
      omega
    show (if value.length > maxLogicalBytes then _ else _ : KeyOp Unit).run.Ends _ _ _
    rw [if_neg hmax]
    cases hp : K.objectKey key with
    | error e =>
      refine Placed.refused (fun k hk => ?_) (.inr fun hfit => ?_)
      · rw [hk] at hp
        unfold AtomicKeyspace.objectKey at hp
        cases hv : validateIdentifier "key" key with
        | error e =>
          rw [hv, validate_error hv] at hp
          cases hp
        | ok u =>
          rw [hv, Except.bind] at hp
          split at hp <;> cases hp
      · rw [hfit.path] at hp
        cases hp
    | ok path =>
      obtain ⟨rfl, hv⟩ := AtomicKeyspace.objectKey_ok hp
      show (if value.length > inlineMax then _ else _ : KeyOp Unit).run.Ends _ _ _
      rw [if_neg (by omega)]
      exact ends_createInline ho hp 7

/-- What the creation of a short value asks. -/
theorem every_createShort {P : Req → Prop} {ids : ℕ → Bytes} (hreads : Key.AllowsReads K P)
    (hput : K.objectKey key = .ok (K.root ++ key) → ∀ n, P (.put (K.root ++ key) (ValueEnvelope.mk n 0 value).encode none))
    (hevict : ∀ e, P (.deleteIf (K.root ++ key) e)) (hshort : value.length ≤ inlineMax) :
    (create O K fuel key value ids).run.Every P fun _ => True := by
  refine Prog.every_bind_trivial Key.every_check fun _ => ?_
  split
  · trivial
  cases hp : K.objectKey key with
  | error e => trivial
  | ok path =>
  obtain ⟨rfl, hv⟩ := AtomicKeyspace.objectKey_ok hp
  show (if value.length > inlineMax then _ else _ : KeyOp Unit).run.Every _ _
  rw [if_neg (Nat.not_lt_of_ge hshort)]
  generalize 8 = tries
  induction tries with
  | zero => trivial
  | succ tries ih =>
  refine Prog.every_bind_trivial (Key.every_currentIncarnation hreads _) fun n => ?_
  refine Op.every_ask_bind.2 ⟨hput hp n, ?_⟩
  have hevicts : (evictStaleEra K key (K.root ++ key) n (ValueEnvelope.mk n 0 value).encode).run.Every P fun _ => True := by
    refine Prog.every_bind_trivial (Key.every_currentIncarnation hreads _) fun n => ?_
    split
    · trivial
    refine Op.every_ask_bind.2 ⟨hreads.valid hv, ?_⟩
    rintro ((_ | _ | _) | ⟨data, _ | e⟩)
    any_goals trivial
    dsimp only
    split
    · refine Op.every_ask_bind.2 ⟨hevict _, ?_⟩
      rintro ((_ | _ | _) | u) <;> trivial
    · trivial
  rintro ((_ | _ | _) | y)
  any_goals trivial
  refine Prog.every_bind_trivial hevicts ?_
  rintro (_ | _ | e)
  · trivial
  · exact ih
  · trivial

/-- What makes a key fit is its counter. -/
theorem Fit.agree (h : Fit K s key) (ha : Agree (K.Own (incarnationKey key)) s t) : Fit K t key := by
  refine ⟨h.opened, h.path, ?_⟩
  obtain ⟨n, hn⟩ := h.counted
  have hpath := pathFrom_incarnationKey (K := K) (AtomicKeyspace.objectKey_ok h.path).2
  refine ⟨n, ?_⟩
  rw [AtomicKeyspace.counter, hpath] at hn ⊢
  rw [ha _ (.inl rfl)]
  exact hn

end YeetzS3.Keyspace
