import YeetzS3.Keyspace.Told

/-!
# Writes of keys that were never destroyed

A key that was never destroyed has no incarnation counter. Under a law that keeps it so, an inline creation is one
put-if-absent and an inline replacement one conditional put, both stamped with incarnation 0: no publication is evicted.
-/

namespace YeetzS3.Keyspace

open Conc

variable {Call : Type} {Res : Call → Type} {S : System Store Req Resp Call Res} {B : Backend} {L : Law Store} {t : ℕ}
  {h h' : History Call Res} {O : Outside} {K : AtomicKeyspace} {key : Str} {n m : ℕ} {value : Bytes}

/-- The bytes of an inline control of a key that was never destroyed. -/
def inlineBytes (version : UInt64) (value : Bytes) : Bytes := (ValueEnvelope.mk 0 version value).encode

/-- The law never lets the key have a counter. -/
def Uncounted (K : AtomicKeyspace) (L : Law Store) (key : Str) : Prop :=
  ∀ s, L.Good s → s.lookup (K.root ++ incarnationKey key) = none

theorem pathFrom_incarnationKey (hv : ValidPath key) : pathFrom (K.root ++ incarnationKey key) = K.root ++ incarnationKey key :=
  pathFrom_of_valid (AtomicKeyspace.validPath_root_append (validPath_append.2 ⟨by decide, hv⟩))

/-- Its counter reads 0, or cannot be read. -/
theorem safe_uncounted (hS : S.exec = B.delivers) (hv : ValidPath key) (hc : Uncounted K L key) :
    Safe S (L.Inv B.delivers) t (currentIncarnation K key).run
      (fun r _ => r = .ok 0 ∨ B.faults ∧ ∃ operation, r = .error (.unavailable operation)) h := by
  refine Law.safe_read hS trivial fun h₁ hle hI x hx hI' => ?_
  match x, hx with
  | .ok (raw, e), hx =>
    obtain ⟨o, ho, -⟩ := Backend.get_ok hx
    rw [pathFrom_incarnationKey hv, hc _ hI.state] at ho
    cases ho
  | .error .notFound, _ => exact Safe.ret fun _ _ => .inl rfl
  | .error .preconditionFailed, hx => exact Safe.ret fun _ _ => .inr ⟨Backend.get_error hx (by simp), _, rfl⟩
  | .error .failed, hx => exact Safe.ret fun _ _ => .inr ⟨Backend.get_error hx (by simp), _, rfl⟩

/-! ### Creation -/

/-- How a creation of `value` by call `t` since time `n` ended: its put landed, was refused, was not made, or is unknown. -/
inductive Created (K : AtomicKeyspace) (B : Backend) (key : Str) (value : Bytes) (t : ℕ) (h : History Call Res) (n : ℕ) :
    Except KeyspaceError Unit → Prop where
  | landed {i : ℕ} {y : Option Etag} (hn : n ≤ i) (ha : h.Asked i t (.put (K.root ++ key) (inlineBytes 0 value) none) (.ok y)) :
      Created K B key value t h n (.ok ())
  | taken {i : ℕ} (hn : n ≤ i)
      (ha : h.Asked i t (.put (K.root ++ key) (inlineBytes 0 value) none) (.error .preconditionFailed)) :
      Created K B key value t h n (.error (.alreadyExists key))
  | reserved {e : KeyspaceError} (he : ensureNotReservedKey key = .error e) : Created K B key value t h n (.error e)
  | invalid {e : KeyspaceError} (he : K.objectKey key = .error e) : Created K B key value t h n (.error e)
  | failed (hf : B.faults) (operation : String) : Created K B key value t h n (.error (.unavailable operation))

theorem safe_createInline {tries : ℕ} (hS : S.exec = B.delivers) (hv : ValidPath key) (hc : Uncounted K L key)
    (hI : L.Inv B.delivers h) (htries : tries ≠ 0)
    (hlet : ∀ h₁, h ≤ h₁ → L.Inv B.delivers h₁ → L.Lets B.delivers h₁.store (.put (K.root ++ key) (inlineBytes 0 value) none)) :
    Safe S (L.Inv B.delivers) t (createInline K key (K.root ++ key) value tries).run
      (fun r h' => Created K B key value t h' h.now r) h := by
  obtain ⟨tries, rfl⟩ := Nat.exists_eq_succ_of_ne_zero htries
  refine Safe.seqE hI (safe_uncounted hS hv hc) (fun e h₁ _ _ he => ?_) fun i h₁ hle₁ hI₁ hi => ?_
  · obtain he | ⟨hf, op, he⟩ := he
    · cases he
    · cases he
      exact .failed hf op
  obtain hi | ⟨_, _, hi⟩ := hi
  swap
  · cases hi
  cases hi
  rw [Op.run_ask_bind]
  refine Law.safe_call hS (fun h₂ hr => hlet h₂ (hle₁.trans hr.le) hr.inv) fun h₂ hr y s hx hI₂ => ?_
  have hn : h.now ≤ h₂.now := Hist.now_le (hle₁.trans hr.le)
  match y, hx, hI₂ with
  | .ok y, hx, hI₂ =>
    have hasked := Hist.asked_push_now (h := h₂) (t := t) (r := .put (K.root ++ key) (inlineBytes 0 value) none) (x := .ok y) (s := s)
    have hstale : evictStaleEra K key (K.root ++ key) 0 (inlineBytes 0 value) = currentIncarnation K key >>= fun c =>
      if c = 0 then pure .fresh else evictOwn key (K.root ++ key) (inlineBytes 0 value) := rfl
    show Safe S _ t (evictStaleEra K key (K.root ++ key) 0 (inlineBytes 0 value) >>= _).run _ _
    rw [hstale, bind_assoc]
    refine Safe.seqE hI₂ (safe_uncounted hS hv hc) (fun e h₃ _ _ he => ?_) fun c h₃ hle₃ hI₃ hi => ?_
    · obtain he | ⟨hf, op, he⟩ := he
      · cases he
      · cases he
        exact .failed hf op
    · obtain hi | ⟨_, _, hi⟩ := hi
      · cases hi
        exact Safe.ret fun h₄ hr₄ => .landed hn (hasked.mono (hle₃.trans hr₄.le))
      · cases hi
  | .error .preconditionFailed, _, _ =>
    exact Safe.ret fun h₃ hr₃ => .taken hn (Hist.asked_push_now.mono hr₃.le)
  | .error .notFound, hx, _ => exact Safe.ret fun h₃ _ => .failed (Backend.delivers_put_failed hx (by simp)) _
  | .error .failed, hx, _ => exact Safe.ret fun h₃ _ => .failed (Backend.delivers_put_failed hx (by simp)) _

/-- A creation of a short value is at most one put-if-absent. -/
theorem safe_create {fuel : ℕ} {ids : ℕ → Bytes} (hS : S.exec = B.delivers) (hc : Uncounted K L key) (hI : L.Inv B.delivers h)
    (hshort : value.length ≤ inlineMax)
    (hlet : Open key → ValidPath key → ∀ h₁, h ≤ h₁ → L.Inv B.delivers h₁ →
      L.Lets B.delivers h₁.store (.put (K.root ++ key) (inlineBytes 0 value) none)) :
    Safe S (L.Inv B.delivers) t (create O K fuel key value ids).run (fun r h' => Created K B key value t h' h.now r) h := by
  unfold create
  cases ho : ensureNotReservedKey key with
  | error e => exact Safe.ret fun _ _ => .reserved ho
  | ok u =>
    have hmax : ¬ value.length > maxLogicalBytes := by
      have : inlineMax ≤ maxLogicalBytes := by decide
      omega
    show Safe S _ t (if value.length > maxLogicalBytes then _ else _ : KeyOp Unit).run _ _
    rw [if_neg hmax]
    cases hp : K.objectKey key with
    | error e => exact Safe.ret fun _ _ => .invalid hp
    | ok path =>
      obtain ⟨rfl, hv⟩ := AtomicKeyspace.objectKey_ok hp
      show Safe S _ t (if value.length > inlineMax then _ else _ : KeyOp Unit).run _ _
      rw [if_neg (by omega)]
      exact safe_createInline hS hv hc hI (by decide) (hlet ho hv)

/-! ### Replacement -/

/-- How a replacement by call `t` since time `n` ended: its put landed, or it returned an error. -/
inductive Replaced (K : AtomicKeyspace) (key : Str) (expected : Etag) (value : Bytes) (t : ℕ) (h : History Call Res) (n : ℕ) :
    Except KeyspaceError Etag → Prop where
  | landed {i : ℕ} {version : UInt64} {y : Option Etag} {etag : Etag} (hn : n ≤ i)
      (ha : h.Asked i t (.put (K.root ++ key) (inlineBytes version value) (some expected)) (.ok y)) :
      Replaced K key expected value t h n (.ok etag)
  | refused (e : KeyspaceError) : Replaced K key expected value t h n (.error e)

theorem safe_conflict {expected : Etag} {α : Type} {Q : Except KeyspaceError α → History Call Res → Prop} (hS : S.exec = B.delivers)
    (hI : L.Inv B.delivers h) (hq : ∀ e h', Q (.error e) h') :
    Safe S (L.Inv B.delivers) t (do throw (← casConflict O K key expected) : KeyOp α).run Q h :=
  Safe.seqE hI (Law.safe_looks hS (Key.every_casConflict O (allowsReads_of looks_of_reads) ..)) (fun e h' _ _ _ => hq e h')
    fun e _ _ _ _ => Safe.ret fun h' _ => hq e h'

/-- What a replacement binds on a key without a counter is in incarnation 0. -/
theorem safe_bindSuccessor {operation : String} {expected : Etag} (hS : S.exec = B.delivers) (hv : ValidPath key)
    (hc : Uncounted K L key) :
    Safe S (L.Inv B.delivers) t (bindSuccessor O K operation key (K.root ++ key) expected).run
      (fun r _ => ∀ i v, r = .ok (i, v) → i = 0) h := by
  refine Law.safe_read hS trivial fun h₁ hle hI x hx hI' => ?_
  have hfail : ∀ (e : KeyspaceError) {h' : Hist Store Req Resp Call Res}, Safe S (L.Inv B.delivers) t (.ret (.error e))
      (fun (r : Except KeyspaceError (UInt64 × UInt64)) _ => ∀ i v, r = .ok (i, v) → i = 0) h' :=
    fun e _ => Safe.ret fun _ _ i v hiv => by cases hiv
  rcases x with (_ | _ | _) | ⟨data, _ | etag⟩
  · exact hfail _
  · exact hfail _
  · exact hfail _
  · exact hfail _
  · dsimp only
    split
    · exact safe_conflict hS hI' fun _ _ i v hiv => by cases hiv
    cases hd : ControlEnvelope.decode O key data with
    | error e => exact hfail _
    | ok control =>
      have hopen : ensureOpenValueEra K key control.incarnation = currentIncarnation K key >>= fun c =>
        if c = control.incarnation then pure () else throw (.staleIncarnation key) := rfl
      show Safe S _ t (ensureOpenValueEra K key control.incarnation >>= _).run _ _
      rw [hopen, bind_assoc]
      refine Safe.seqE hI' (safe_uncounted hS hv hc) (fun e _ _ _ _ i v hiv => by cases hiv) fun c h₂ _ _ hcount => ?_
      obtain hcount | ⟨_, _, hcount⟩ := hcount
      swap
      · cases hcount
      cases hcount
      split
      · next h0 =>
        cases hs : checkedSucc control.version with
        | none => exact hfail _
        | some nextVersion =>
          refine Safe.ret fun _ _ i v hiv => ?_
          cases hiv
          exact h0.symm
      · exact hfail _

/-- A replacement by a short value is at most one conditional put. -/
theorem safe_compareExchange {fuel : ℕ} {expected : Etag} {commitId : Bytes} (hS : S.exec = B.delivers) (hc : Uncounted K L key)
    (hI : L.Inv B.delivers h) (hshort : value.length ≤ inlineMax)
    (hlet : ValidPath key → ∀ h₁, h ≤ h₁ → L.Inv B.delivers h₁ → ∀ version,
      L.Lets B.delivers h₁.store (.put (K.root ++ key) (inlineBytes version value) (some expected))) :
    Safe S (L.Inv B.delivers) t (compareExchange O K fuel key expected value commitId).run
      (fun r h' => Replaced K key expected value t h' h.now r) h := by
  unfold compareExchange
  cases ho : ensureNotReservedKey key with
  | error e => exact Safe.ret fun _ _ => .refused e
  | ok u =>
    have hmax : ¬ value.length > maxLogicalBytes := by
      have : inlineMax ≤ maxLogicalBytes := by decide
      omega
    show Safe S _ t (if value.length > maxLogicalBytes then _ else _ : KeyOp Etag).run _ _
    rw [if_neg hmax]
    cases hp : K.objectKey key with
    | error e => exact Safe.ret fun _ _ => .refused e
    | ok path =>
      obtain ⟨rfl, hv⟩ := AtomicKeyspace.objectKey_ok hp
      show Safe S _ t (bindSuccessor O K "keyspace compare_exchange read" key (K.root ++ key) expected >>= _).run _ _
      refine Safe.seqE hI (safe_bindSuccessor hS hv hc) (fun e _ _ _ _ => .refused e) fun ⟨i, version⟩ h₁ hle₁ hI₁ hi => ?_
      obtain rfl := hi i version rfl
      show Safe S _ t (if value.length > inlineMax then _ else _ : KeyOp Etag).run _ _
      rw [if_neg (by omega)]
      refine Law.safe_call hS (fun h₂ hr => hlet hv h₂ (hle₁.trans hr.le) hr.inv version) fun h₂ hr y s hx hI₂ => ?_
      have hn : h.now ≤ h₂.now := Hist.now_le (hle₁.trans hr.le)
      match y, hI₂ with
      | .ok (some etag), hI₂ =>
        have hasked := Hist.asked_push_now (h := h₂) (t := t)
          (r := .put (K.root ++ key) (inlineBytes version value) (some expected)) (x := .ok (some etag)) (s := s)
        refine Safe.seqE hI₂ (safe_uncounted hS hv hc) (fun e _ _ _ _ => .refused e) fun c h₃ hle₃ hI₃ hcount => ?_
        obtain hcount | ⟨_, _, hcount⟩ := hcount
        · cases hcount
          exact Safe.ret fun h₄ hr₄ => .landed hn (hasked.mono (hle₃.trans hr₄.le))
        · cases hcount
      | .ok none, _ => exact Safe.ret fun _ _ => .refused _
      | .error .preconditionFailed, hI₂ => exact safe_conflict hS hI₂ fun e _ => .refused e
      | .error .notFound, _ => exact Safe.ret fun _ _ => .refused _
      | .error .failed, _ => exact Safe.ret fun _ _ => .refused _

end YeetzS3.Keyspace
