import YeetzS3.Delivery
import YeetzS3.Keyspace.Floor

/-!
# What the operations of a keyspace tell

What a call knows after a read, a list or a walk over certificates that other calls interleave with: at some moment since
it began the bucket was as the answer says. Each rule holds under every law, since these operations only read.
-/

namespace YeetzS3.Keyspace

open Conc

/-! ### Answers -/

/-- The object is a control whose value, if it is inline, is `v`. -/
def Shows (O : Outside) (key : Str) (o : Object) (v : Bytes) : Prop :=
  ∃ c, ControlEnvelope.decode O key o.data = .ok c ∧ ∀ e, c = .inline e → e.payload = v

section
variable {Call : Type} {Res : Call → Type} (O : Outside) (K : AtomicKeyspace) (B : Backend) (key : Str)
  (h : History Call Res) (n : ℕ)

/-- What a read of a key since time `n` says. -/
inductive Got : Except KeyspaceError (Option Bytes) → Prop where
  | absent (ha : h.Since n fun s => s.lookup (K.root ++ key) = none) : Got (.ok none)
  | shows {v : Bytes} (hv : h.Since n fun s => ∃ o, s.lookup (K.root ++ key) = some o ∧ Shows O key o v) : Got (.ok (some v))
  | invalid {e : KeyspaceError} (he : K.objectKey key = .error e) : Got (.error e)
  | malformed {e : KeyspaceError} (he : h.Since n fun s => ∃ o, s.lookup (K.root ++ key) = some o ∧
      ControlEnvelope.decode O key o.data = .error e) : Got (.error e)
  | chunks {e : KeyspaceError} (he : h.Since n fun s => ∃ o m, s.lookup (K.root ++ key) = some o ∧
      ControlEnvelope.decode O key o.data = .ok (.chunked m)) : Got (.error e)
  | failed (hf : B.faults) (operation : String) : Got (.error (.unavailable operation))

/-- What a read of a key with its etag since time `n` says. -/
inductive GotTagged : Except KeyspaceError (Option (Bytes × Etag)) → Prop where
  | absent (ha : h.Since n fun s => s.lookup (K.root ++ key) = none) : GotTagged (.ok none)
  | shows {v : Bytes} {e : Etag} (hv : h.Since n fun s => ∃ o, s.lookup (K.root ++ key) = some o ∧ o.etag = e ∧
      Shows O key o v) : GotTagged (.ok (some (v, e)))
  | invalid {e : KeyspaceError} (he : K.objectKey key = .error e) : GotTagged (.error e)
  | malformed {e : KeyspaceError} (he : h.Since n fun s => ∃ o, s.lookup (K.root ++ key) = some o ∧
      ControlEnvelope.decode O key o.data = .error e) : GotTagged (.error e)
  | chunks {e : KeyspaceError} (he : h.Since n fun s => ∃ o m, s.lookup (K.root ++ key) = some o ∧
      ControlEnvelope.decode O key o.data = .ok (.chunked m)) : GotTagged (.error e)
  | failed (hf : B.faults) (operation : String) : GotTagged (.error (.unavailable operation))

/-- What a list since time `n` says. -/
inductive Listed (after : Option Str) (limit : ℕ) : Except KeyspaceError (List Str) → Prop where
  | keys {keys : List Str} (hk : h.Since n fun s => keys.Sublist (K.keysAfter s after) ∧
      (¬ B.omits → keys = (K.keysAfter s after).take limit)) : Listed after limit (.ok keys)
  | invalid {e : KeyspaceError} (he : after.elim (.ok ()) (validateIdentifier "start_after") = .error e) :
      Listed after limit (.error e)
  | failed (hf : B.faults) (operation : String) : Listed after limit (.error (.unavailable operation))

end

section
variable {Call : Type} {Res : Call → Type} {S : System Store Req Resp Call Res} {B : Backend} {L : Law Store} {t : ℕ}
  {h h' : History Call Res} {O : Outside} {K : AtomicKeyspace} {key : Str} {n m : ℕ}

theorem Got.mono {r} (hg : Got O K B key h n r) (hh : h ≤ h') (hm : m ≤ n) : Got O K B key h' m r := by
  cases hg with
  | absent ha => exact .absent (ha.mono hh hm)
  | shows hv => exact .shows (hv.mono hh hm)
  | invalid he => exact .invalid he
  | malformed he => exact .malformed (he.mono hh hm)
  | chunks he => exact .chunks (he.mono hh hm)
  | failed hf op => exact .failed hf op

theorem GotTagged.mono {r} (hg : GotTagged O K B key h n r) (hh : h ≤ h') (hm : m ≤ n) : GotTagged O K B key h' m r := by
  cases hg with
  | absent ha => exact .absent (ha.mono hh hm)
  | shows hv => exact .shows (hv.mono hh hm)
  | invalid he => exact .invalid he
  | malformed he => exact .malformed (he.mono hh hm)
  | chunks he => exact .chunks (he.mono hh hm)
  | failed hf op => exact .failed hf op

theorem GotTagged.of_got {e : KeyspaceError} (hg : Got O K B key h n (.error e)) : GotTagged O K B key h n (.error e) := by
  cases hg with
  | invalid he => exact .invalid he
  | malformed he => exact .malformed he
  | chunks he => exact .chunks he
  | failed hf op => exact .failed hf op

theorem Listed.mono {after : Option Str} {limit : ℕ} {r} (hl : Listed K B h n after limit r) (hh : h ≤ h') (hm : m ≤ n) :
    Listed K B h' m after limit r := by
  cases hl with
  | keys hk => exact .keys (hk.mono hh hm)
  | invalid he => exact .invalid he
  | failed hf op => exact .failed hf op

theorem every_looks_collectValue (data : Bytes) : (collectValue O K key data).run.Every Req.Looks fun _ => True :=
  Key.every_collectValue O (allowsReads_of looks_of_reads) key data

/-- What a control's value is, or that it could not be collected. -/
theorem collectValue_eq (data : Bytes) :
    (∃ e, ControlEnvelope.decode O key data = .error e ∧ collectValue O K key data = throw e) ∨
      (∃ v, Shows O key ⟨data, []⟩ v ∧ collectValue O K key data = pure v) ∨
      ∃ m, ControlEnvelope.decode O key data = .ok (.chunked m) := by
  cases hd : ControlEnvelope.decode O key data with
  | error e =>
    refine .inl ⟨e, rfl, ?_⟩
    rw [collectValue, hd]
    rfl
  | ok c =>
    cases c with
    | inline e =>
      refine .inr (.inl ⟨e.payload, ⟨_, hd, ?_⟩, ?_⟩)
      · rintro _ ⟨⟩
        rfl
      · rw [collectValue, hd]
        rfl
    | chunked m => exact .inr (.inr ⟨m, rfl⟩)

/-- Collecting the value of a control that was just read. -/
theorem safe_collectValue {o : Object} (hS : S.exec = B.delivers) (hn : h.Since n fun s => s.lookup (K.root ++ key) = some o) :
    Safe S (L.Inv B.delivers) t (collectValue O K key o.data).run (fun r h' => match r with
      | .ok v => Shows O key o v ∧ h'.Since n fun s => s.lookup (K.root ++ key) = some o
      | .error e => Got O K B key h' n (.error e)) h := by
  rcases @collectValue_eq O K key o.data with ⟨e, hd, hc⟩ | ⟨v, hv, hc⟩ | ⟨m, hd⟩
  · rw [hc]
    exact Safe.ret fun h' hr => .malformed ((hn.mono hr.le le_rfl).imp fun s hs => ⟨o, hs, hd⟩)
  · rw [hc]
    exact Safe.ret fun h' hr => ⟨hv, hn.mono hr.le le_rfl⟩
  · refine (Law.safe_looks hS (every_looks_collectValue o.data)).imp fun r h' hh _ _ => ?_
    have hn' := hn.mono hh le_rfl
    cases r with
    | ok v => exact ⟨⟨_, hd, nofun⟩, hn'⟩
    | error e => exact .chunks (hn'.imp fun s hs => ⟨o, m, hs, hd⟩)

/-- A download that answered found the object. -/
theorem lookup_of_get {s s' : Store} {d : Bytes} {e : Option Etag} (hv : ValidPath key)
    (hx : B.exec s (.get (K.root ++ key)) (.ok (d, e)) s') :
    ∃ o, s.lookup (K.root ++ key) = some o ∧ o.data = d ∧ ∀ t, e = some t → o.etag = t := by
  have ho := Backend.get_ok hx
  rwa [pathFrom_of_valid (AtomicKeyspace.validPath_root_append hv)] at ho

theorem lookup_of_notFound {s s' : Store} (hv : ValidPath key) (hx : B.exec s (.get (K.root ++ key)) (.error .notFound) s') :
    s.lookup (K.root ++ key) = none := by
  have ho := Backend.get_notFound hx
  rwa [pathFrom_of_valid (AtomicKeyspace.validPath_root_append hv)] at ho

/-- A read of a key tells what was there. -/
theorem safe_get (hS : S.exec = B.delivers) :
    Safe S (L.Inv B.delivers) t (get O K key).run (fun r h' => Got O K B key h' h.now r) h := by
  unfold get
  cases hp : K.objectKey key with
  | error e => exact Safe.ret fun h' _ => .invalid hp
  | ok path =>
    obtain ⟨rfl, hv⟩ := AtomicKeyspace.objectKey_ok hp
    refine Law.safe_read hS trivial fun h₁ hle hI x hx hI' => ?_
    have hn := Hist.now_le hle
    match x, hx, hI' with
    | .ok (data, etag), hx, hI' =>
      obtain ⟨o, ho, rfl, -⟩ := lookup_of_get hv hx
      refine Safe.map hI' (safe_collectValue hS (.of_pre hn ho)) ?_
      rintro (e | v) h₂ hle₂ hI₂ hq
      · exact hq
      · exact .shows (hq.2.imp fun s hs => ⟨o, hs, hq.1⟩)
    | .error .notFound, hx, _ =>
      exact Safe.ret fun h₂ hr => Got.mono (.absent (.of_pre hn (lookup_of_notFound hv hx))) hr.le le_rfl
    | .error .preconditionFailed, hx, _ => exact Safe.ret fun h₂ _ => Got.failed (Backend.get_error hx (by simp)) _
    | .error .failed, hx, _ => exact Safe.ret fun h₂ _ => Got.failed (Backend.get_error hx (by simp)) _

/-- A read of a key with its etag tells what was there. -/
theorem safe_getWithEtag (hS : S.exec = B.delivers) :
    Safe S (L.Inv B.delivers) t (getWithEtag O K key).run (fun r h' => GotTagged O K B key h' h.now r) h := by
  unfold getWithEtag
  cases hp : K.objectKey key with
  | error e => exact Safe.ret fun h' _ => .invalid hp
  | ok path =>
    obtain ⟨rfl, hv⟩ := AtomicKeyspace.objectKey_ok hp
    refine Law.safe_read hS trivial fun h₁ hle hI x hx hI' => ?_
    have hn := Hist.now_le hle
    match x, hx, hI' with
    | .ok (data, some etag), hx, hI' =>
      obtain ⟨o, ho, rfl, he⟩ := lookup_of_get hv hx
      refine Safe.seqE hI' (safe_collectValue hS (.of_pre hn ho)) (fun e h₂ _ _ hq => .of_got hq) fun v h₂ _ _ hq => ?_
      exact Safe.ret fun h₃ hr₃ => .shows ((hq.2.mono hr₃.le le_rfl).imp fun s hs => ⟨o, hs, he _ rfl, hq.1⟩)
    | .ok (data, none), hx, _ =>
      refine Safe.ret fun h₂ _ => GotTagged.failed ?_ _
      by_contra hf
      obtain ⟨t, ht⟩ := Backend.get_etag hf hx
      cases ht
    | .error .notFound, hx, _ =>
      exact Safe.ret fun h₂ hr => GotTagged.mono (.absent (.of_pre hn (lookup_of_notFound hv hx))) hr.le le_rfl
    | .error .preconditionFailed, hx, _ => exact Safe.ret fun h₂ _ => GotTagged.failed (Backend.get_error hx (by simp)) _
    | .error .failed, hx, _ => exact Safe.ret fun h₂ _ => GotTagged.failed (Backend.get_error hx (by simp)) _

/-- A list tells what there was to list. -/
theorem safe_listAfter {after : Option Str} {limit : ℕ} (hS : S.exec = B.delivers) :
    Safe S (L.Inv B.delivers) t (listAfter K after limit).run (fun r h' => Listed K B h' h.now after limit r) h := by
  unfold listAfter
  split
  · next hz =>
    refine Safe.ret fun h' hr => .keys (.of_now (Hist.now_le hr.le) ⟨List.nil_sublist _, fun _ => ?_⟩)
    rw [hz, List.take_zero]
  cases hv : after.elim (.ok ()) (validateIdentifier "start_after") with
  | error e => exact Safe.ret fun h' _ => .invalid hv
  | ok u =>
    refine Law.safe_read hS trivial fun h₁ hle hI x hx hI' => ?_
    have hn := Hist.now_le hle
    obtain ⟨-, hx⟩ := hx
    rw [listing_eq (validPath_of_check hv), ← List.map_take] at hx
    rcases hx with rfl | ⟨homits, ks, hs, -, rfl⟩ | ⟨hf, rfl⟩
    · refine Safe.ret fun h₂ hr => Listed.mono (.keys (.of_pre hn ?_)) hr.le le_rfl
      rw [filterMap_stripPrefix]
      exact ⟨List.take_sublist .., fun _ => rfl⟩
    · refine Safe.ret fun h₂ hr => Listed.mono (.keys (.of_pre hn ⟨?_, fun h => absurd homits h⟩)) hr.le le_rfl
      rw [← filterMap_stripPrefix (K := K) (K.keysAfter _ after)]
      exact hs.filterMap _
    · exact Safe.ret fun h₂ _ => .failed hf _

end

/-! ### Certificates -/

section
variable {pfx : Str} {keys : List Str} {after : Option Str} {floor : Option UInt64} {f : UInt64}

/-- The floor a page leaves. -/
def pageFloor : Option UInt64 ⊕ (Option Str × Option UInt64) → Option UInt64
  | .inl final => final
  | .inr (_, soFar) => soFar

/-- A page finds only certificates. -/
theorem floorPage_sound (h : pageFloor (floorPage pfx keys after floor) = some f) :
    floor = some f ∨ pfx ++ seqComponent f ∈ keys := by
  induction keys generalizing after floor with
  | nil => exact .inl h
  | cons key keys ih =>
    have hlater : ∀ {after}, pageFloor (floorPage pfx keys after floor) = some f →
        floor = some f ∨ pfx ++ seqComponent f ∈ key :: keys := fun h => (ih h).imp_right (List.mem_cons_of_mem _)
    rw [floorPage] at h
    split at h
    · split at h
      · exact hlater h
      · exact .inl h
    · next digits hd =>
      split at h
      · next seq hp =>
        have hkey : key = pfx ++ seqComponent seq := by rw [stripPrefix_eq_some.1 hd, seqComponent_of_parse hp]
        rcases ih h with h | h
        · cases floor with
          | none =>
            cases h
            exact .inr (hkey ▸ List.mem_cons_self)
          | some g =>
            have hmax : max g seq = g ∨ max g seq = seq := by
              rw [show max g seq = if g ≤ seq then seq else g from rfl]
              split
              · exact .inr rfl
              · exact .inl rfl
            rw [Option.elim_some, Option.some_inj] at h
            rcases hmax with hm | hm
            · exact .inl (congrArg some (hm.symm.trans h))
            · rw [← h, hm]
              exact .inr (hkey ▸ List.mem_cons_self)
        · exact .inr (List.mem_cons_of_mem _ h)
      · exact hlater h

theorem le_elim_max {g seq : UInt64} : ∀ floor : Option UInt64, floor = some g → g ≤ floor.elim seq (max · seq) := by
  rintro _ rfl
  rw [Option.elim_some, show max g seq = if g ≤ seq then seq else g from rfl]
  split
  · assumption
  · exact UInt64.le_refl g

theorem le_elim_max_right {seq : UInt64} (floor : Option UInt64) : seq ≤ floor.elim seq (max · seq) := by
  cases floor with
  | none => exact UInt64.le_refl seq
  | some g =>
    rw [Option.elim_some, show max g seq = if g ≤ seq then seq else g from rfl]
    split
    · exact UInt64.le_refl seq
    · next h => exact UInt64.le_of_lt (UInt64.not_le.1 h)

/-- A page does not go below the floor so far. -/
theorem floorPage_mono (hf : floor = some f) : ∃ f', pageFloor (floorPage pfx keys after floor) = some f' ∧ f ≤ f' := by
  induction keys generalizing after floor f with
  | nil => exact ⟨f, hf, UInt64.le_refl f⟩
  | cons key keys ih =>
    rw [floorPage]
    split
    · split
      · exact ih hf
      · exact ⟨f, hf, UInt64.le_refl f⟩
    · split
      · next seq hp =>
        obtain ⟨f', hf', hle⟩ := @ih (some key) (some (floor.elim seq (max · seq))) _ rfl
        exact ⟨f', hf', UInt64.le_trans (le_elim_max floor hf) hle⟩
      · exact ih hf

/-- The certificates of a page are at most its floor. -/
theorem floorPage_bounds (hs : keys.Pairwise (· < ·)) (hf : pfx ++ seqComponent f ∈ keys) :
    ∃ f', pageFloor (floorPage pfx keys after floor) = some f' ∧ f ≤ f' := by
  induction keys generalizing after floor with
  | nil => cases hf
  | cons key keys ih =>
    obtain ⟨hlt, hs⟩ := List.pairwise_cons.1 hs
    rw [floorPage]
    rcases List.mem_cons.1 hf with rfl | hf
    · rw [stripPrefix_eq_some.2 rfl]
      dsimp only
      rw [parseSeqComponent_seqComponent]
      obtain ⟨f', hf', hle⟩ := @floorPage_mono pfx keys (some (pfx ++ seqComponent f))
        (some (floor.elim f (max · f))) _ rfl
      exact ⟨f', hf', UInt64.le_trans (le_elim_max_right floor) hle⟩
    · split
      · next hout =>
        split
        · exact ih hs hf
        · next hafter =>
          -- a certificate behind a key that is not one of them
          obtain ⟨q, hq⟩ := prefix_of_between hafter (hlt _ hf)
          rw [stripPrefix_eq_some.2 hq.symm] at hout
          cases hout
      · split
        · exact ih hs hf
        · exact ih hs hf

/-- A walk ends in a page behind all certificates. -/
theorem floorPage_last {final : Option UInt64} (h : floorPage pfx keys after floor = .inl final) :
    ∃ z ∈ keys, ∀ f, pfx ++ seqComponent f ≤ z := by
  induction keys generalizing after floor with
  | nil => cases h
  | cons key keys ih =>
    have hlater : ∀ {after floor}, floorPage pfx keys after floor = .inl final → ∃ z ∈ key :: keys, ∀ f, pfx ++ seqComponent f ≤ z := by
      intro after floor h
      obtain ⟨z, hz, hle⟩ := ih h
      exact ⟨z, List.mem_cons_of_mem _ hz, hle⟩
    rw [floorPage] at h
    split at h
    · next hout =>
      split at h
      · exact hlater h
      · next hafter =>
        refine ⟨key, List.mem_cons_self, fun f => not_lt.1 fun hlt => ?_⟩
        obtain ⟨q, hq⟩ := prefix_of_between hafter hlt
        rw [stripPrefix_eq_some.2 hq.symm] at hout
        cases hout
    · split at h
      · exact hlater h
      · exact hlater h

/-- Where a walk goes on. -/
theorem floorPage_next {last : Option Str} {soFar : Option UInt64} (h : floorPage pfx keys after floor = .inr (last, soFar)) :
    last = keys.getLast?.or after := by
  induction keys generalizing after floor with
  | nil =>
    cases h
    rfl
  | cons key keys ih =>
    have hlater : ∀ {floor}, floorPage pfx keys (some key) floor = .inr (last, soFar) → last = (key :: keys).getLast?.or after := by
      intro floor h
      rw [ih h, List.getLast?_cons]
      cases keys.getLast? <;> rfl
    rw [floorPage] at h
    split at h
    · split at h
      · exact hlater h
      · cases h
    · split at h
      · exact hlater h
      · exact hlater h

end

section
variable {Call : Type} {Res : Call → Type} {S : System Store Req Resp Call Res} {B : Backend} {L : Law Store} {t : ℕ}
  {h h' : History Call Res} {K : AtomicKeyspace} {pfx scope : Str} {fuel n m : ℕ} {P : UInt64 → Prop}

/-- What a floor looked up since time `n` says: it is a certificate, and none of `P` is above it unless lists omit keys. -/
structure FloorTold (K : AtomicKeyspace) (B : Backend) (pfx : Str) (h : History Call Res) (n : ℕ) (P : UInt64 → Prop)
    (floor : Option UInt64) : Prop where
  sound : ∀ f, floor = some f → h.Since n fun s => K.Certified s pfx f
  complete : ¬ B.omits → ∀ f, P f → ∃ f', floor = some f' ∧ f ≤ f'

/-- One page of the walk: the certificates that are not behind the cursor are known. -/
theorem page_told {s : Store} {after : Option Str} {floor : Option UInt64} {keys : List Str} {f : UInt64}
    (hkeys : keys = (K.keysAfter s after).take 1000) (hc : K.Certified s pfx f)
    (hf : (∃ f', floor = some f' ∧ f ≤ f') ∨ ∀ a, after = some a → a < pfx ++ seqComponent f) :
    (∃ f', pageFloor (floorPage pfx keys after floor) = some f' ∧ f ≤ f') ∨
      ∃ last soFar, floorPage pfx keys after floor = .inr (last, soFar) ∧ ¬ keys.length < 1000 ∧
        ∀ a, last = some a → a < pfx ++ seqComponent f := by
  rcases hf with ⟨f', hf', hle⟩ | hf
  · obtain ⟨f'', hf'', hle'⟩ := @floorPage_mono pfx keys after _ _ hf'
    exact .inl ⟨f'', hf'', UInt64.le_trans hle hle'⟩
  have hmem : pfx ++ seqComponent f ∈ K.keysAfter s after :=
    AtomicKeyspace.mem_keysAfter.2 ⟨AtomicKeyspace.mem_keys_iff_lookup.2 hc, hf⟩
  have hsorted : (K.keysAfter s after).Pairwise (· < ·) := AtomicKeyspace.sorted_keysAfter
  rw [← List.take_append_drop 1000 (K.keysAfter s after), ← hkeys, List.mem_append] at hmem
  rw [← List.take_append_drop 1000 (K.keysAfter s after), ← hkeys, List.pairwise_append] at hsorted
  obtain ⟨hs, -, hlt⟩ := hsorted
  rcases hmem with hmem | hmem
  · exact .inl (floorPage_bounds hs hmem)
  have hfull : ¬ keys.length < 1000 := by
    intro hshort
    rw [hkeys, List.length_take] at hshort
    rw [List.drop_eq_nil_iff.2 (by omega)] at hmem
    cases hmem
  cases hp : floorPage pfx keys after floor with
  | inl final =>
    obtain ⟨z, hz, hle⟩ := floorPage_last hp
    exact absurd (hlt z hz _ hmem) (not_lt.2 (hle f))
  | inr r =>
    obtain ⟨last, soFar⟩ := r
    refine .inr ⟨last, soFar, rfl, hfull, fun a ha => ?_⟩
    rw [floorPage_next hp] at ha
    cases hk : keys.getLast? with
    | none =>
      rw [List.getLast?_eq_none_iff] at hk
      rw [hk] at hfull
      exact absurd (by decide) hfull
    | some z =>
      rw [hk] at ha
      cases ha
      exact hlt _ (List.mem_of_getLast? hk) _ hmem

theorem safe_trimFloorLoop {after : Option Str} {floor : Option UInt64} (hS : S.exec = B.delivers)
    (hP : ∀ f, P f → L.Stable fun s => K.Certified s pfx f) (hI : L.Inv B.delivers h) (hnow : ∀ f, P f → K.Certified h.store pfx f)
    (hn : n ≤ h.now) (hsound : ∀ f, floor = some f → h.Since n fun s => K.Certified s pfx f)
    (hcomplete : ¬ B.omits → ∀ f, P f → (∃ f', floor = some f' ∧ f ≤ f') ∨ ∀ a, after = some a → a < pfx ++ seqComponent f) :
    Safe S (L.Inv B.delivers) t (trimFloorLoop K pfx fuel after floor).run
      (fun r h' => ∀ floor, r = .ok floor → FloorTold K B pfx h' n P floor) h := by
  induction fuel generalizing h after floor with
  | zero => trivial
  | succ fuel ih =>
    refine Safe.seqE hI (safe_listAfter hS) (fun e h₁ _ _ _ => nofun) fun keys h₁ hle₁ hI₁ hlist => ?_
    cases hlist with | keys hk => ?_
    have hnow₁ : ∀ f, P f → K.Certified h₁.store pfx f := fun f hf => (hP f hf).store hI₁ hle₁ (hnow f hf)
    have hpage : ∀ f, pageFloor (floorPage pfx keys after floor) = some f → h₁.Since n fun s => K.Certified s pfx f := by
      intro f hf
      rcases floorPage_sound hf with hf | hf
      · exact (hsound f hf).mono hle₁ le_rfl
      · exact (hk.mono le_rfl hn).imp fun s hs => AtomicKeyspace.mem_keys_iff_lookup.1
          (AtomicKeyspace.mem_keysAfter.1 (hs.1.subset hf)).1
    have hrest : ¬ B.omits → ∀ f, P f → (∃ f', pageFloor (floorPage pfx keys after floor) = some f' ∧ f ≤ f') ∨
        ∃ last soFar, floorPage pfx keys after floor = .inr (last, soFar) ∧ ¬ keys.length < 1000 ∧
          ∀ a, last = some a → a < pfx ++ seqComponent f := by
      intro homits f hf
      obtain ⟨i, hi, hi', -, hkeys⟩ := hk
      have hcert : K.Certified (h₁.storeAt i) pfx f := by
        have := hnow f hf
        rw [Hist.store_eq_storeAt hle₁] at this
        exact (hP f hf).storeAt hI₁ hi hi' this
      exact page_told (hkeys homits) hcert (hcomplete homits f hf)
    cases hp : floorPage pfx keys after floor with
    | inl final =>
      rw [hp] at hpage hrest
      refine Safe.ret fun h₂ hr => ?_
      rintro _ ⟨⟩
      refine ⟨fun f hf => (hpage f hf).mono hr.le le_rfl, fun homits f hf => ?_⟩
      rcases hrest homits f hf with h | ⟨_, _, h, -⟩
      · exact h
      · cases h
    | inr r =>
      obtain ⟨last, soFar⟩ := r
      rw [hp] at hpage hrest
      dsimp only
      split
      · next hshort =>
        refine Safe.ret fun h₂ hr => ?_
        rintro _ ⟨⟩
        refine ⟨fun f hf => (hpage f hf).mono hr.le le_rfl, fun homits f hf => ?_⟩
        rcases hrest homits f hf with h | ⟨_, _, -, hfull, -⟩
        · exact h
        · exact absurd hshort hfull
      · refine ih hI₁ hnow₁ (hn.trans (Hist.now_le hle₁)) hpage fun homits f hf => ?_
        rcases hrest homits f hf with h | ⟨_, _, h, -, hlt⟩
        · exact .inl h
        · cases h
          exact .inr hlt

/-- The floor of a scope is a certificate, and no smaller than one that was there when the walk began. -/
theorem safe_trimFloor (hS : S.exec = B.delivers) (hpfx : trimCertPrefix scope = .ok pfx)
    (hP : ∀ f, L.Stable fun s => K.Certified s pfx f) (hI : L.Inv B.delivers h) :
    Safe S (L.Inv B.delivers) t (trimFloor K fuel scope).run
      (fun r h' => ∀ floor, r = .ok floor → FloorTold K B pfx h' h.now (K.Certified h.store pfx) floor) h := by
  have hprog : trimFloor K fuel scope = check (trimCertPrefix scope) >>= fun certPrefix =>
    trimFloorLoop K certPrefix fuel (some (floorStart scope)) none := rfl
  have hdir : pfx = floorStart scope ++ ['/'] := trimCertPrefix_eq hpfx
  rw [hprog, hpfx]
  refine safe_trimFloorLoop hS (fun f _ => hP f) hI (fun f => id) le_rfl nofun fun _ f _ => .inr fun a ha => ?_
  cases ha
  rw [hdir]
  generalize floorStart scope = start
  have hlt : start ++ [] < start ++ (['/'] ++ seqComponent f) := append_lt_append.2 (List.nil_lt_cons ..)
  rwa [List.append_nil, ← List.append_assoc] at hlt

end

end YeetzS3.Keyspace
