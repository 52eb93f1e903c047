import YeetzS3.Streams.Race

/-!
# Genesis

What is put at position 0 of a stream stays there: every other write of every call, on any stream, goes to a key that is not
the genesis, or to a place that is taken. `genesisLaw` says so, of the genesis and of the counters of the stream's events.
-/

namespace YeetzS3.Streams

open Conc
open Keyspace (AtomicKeyspace SpaceCall Key ValidPath Open incarnationKey inlineBytes)

/-! ### Keys apart -/

section
variable {stream stream' : StreamId} {p q f : UInt64} {key : Str}

/-- The directory of a stream's log. -/
theorem StreamId.logKey_dir : stream.logKey q = (stream.value ++ "/log".toList) ++ '/' :: seqComponent q := by
  unfold logKey logPrefix
  rw [show "/log/".toList = "/log".toList ++ ['/'] by decide]
  generalize "/log".toList = l
  simp

/-- Keys that end in a number have the same directory and the same number. -/
theorem dir_inj {a b : Str} (h : a ++ '/' :: seqComponent p = b ++ '/' :: seqComponent q) : a = b ∧ p = q := by
  have hlen : ('/' :: seqComponent p).length = ('/' :: seqComponent q).length := by
    rw [List.length_cons, List.length_cons, seqComponent_length, seqComponent_length]
  obtain ⟨hdir, hseq⟩ := List.append_inj' h hlen
  exact ⟨hdir, seqComponent_injective (List.cons.inj hseq).2⟩

theorem logKey_inj (h : stream.logKey p = stream'.logKey q) : stream = stream' ∧ p = q := by
  rw [StreamId.logKey_dir, StreamId.logKey_dir] at h
  obtain ⟨hdir, hseq⟩ := dir_inj h
  have hvalue : stream.value = stream'.value := List.append_cancel_right hdir
  obtain ⟨v⟩ := stream
  obtain ⟨v'⟩ := stream'
  exact ⟨congrArg StreamId.mk hvalue, hseq⟩

/-- The last letter of the key of an event is a digit. -/
theorem getLast_logKey : ∃ d, (stream.logKey q).getLast? = some d ∧ d.isDigit = true := by
  have hne : seqComponent q ≠ [] := fun h => by
    have := seqComponent_length q
    rw [h] at this
    cases this
  refine ⟨_, ?_, List.all_eq_true.1 (decDigits_isDigit 20 q.toNat) _ (List.getLast_mem hne)⟩
  rw [StreamId.logKey, List.getLast?_append, List.getLast?_eq_some_getLast hne, Option.some_or]

theorem ne_logKey_of_getLast {c : Char} (hc : c.isDigit = false) (h : key.getLast? = some c) : key ≠ stream.logKey q := by
  rintro rfl
  obtain ⟨d, hd, hdigit⟩ := @getLast_logKey stream q
  rw [h] at hd
  cases hd
  rw [hc] at hdigit
  cases hdigit

theorem tailKey_ne_logKey : stream'.tailKey ≠ stream.logKey q := by
  refine ne_logKey_of_getLast (c := 'l') (by decide) ?_
  rw [StreamId.tailKey, List.getLast?_append, show "/tail".toList.getLast? = some 'l' by decide, Option.some_or]

theorem sealKey_ne_logKey : stream'.sealKey ≠ stream.logKey q := by
  refine ne_logKey_of_getLast (c := 'l') (by decide) ?_
  rw [StreamId.sealKey, List.getLast?_append, show "/migration-seal".toList.getLast? = some 'l' by decide, Option.some_or]

/-- The counters of keys are reserved. -/
theorem not_open_incarnationKey : ¬ Open (incarnationKey key) := by
  intro ho
  have hlen : (incarnationKey key).length > 12 := by
    rw [Keyspace.incarnationKey_length]
    omega
  have hpre : "incarnations".toList.isPrefixOf (incarnationKey key) = true := by
    rw [List.isPrefixOf_iff_prefix]
    exact List.prefix_append _ _
  unfold Open Keyspace.ensureNotReservedKey at ho
  generalize incarnationKey key = k at ho hlen hpre
  split at ho
  · cases ho
  · rw [if_pos ⟨hpre, hlen⟩] at ho
    cases ho

/-- The directory of certificates is not one of events or of their counters. -/
theorem cert_ne {scope certPrefix a : Str} (h : Keyspace.trimCertPrefix scope = .ok certPrefix) :
    certPrefix ++ seqComponent f ≠ (a ++ "/log".toList) ++ '/' :: seqComponent q := by
  intro he
  rw [Keyspace.trimCertPrefix_eq h, List.append_assoc, List.singleton_append] at he
  have hlast := congrArg List.getLast? (dir_inj he).1
  have hs : (Keyspace.floorStart scope).getLast? = some 's' := by
    rw [Keyspace.floorStart]
    split
    · decide
    · rw [List.getLast?_append, show ('/' :: "trims".toList).getLast? = some 's' by decide, Option.some_or]
  rw [← Keyspace.floorStart, hs, List.getLast?_append, show "/log".toList.getLast? = some 'g' by decide, Option.some_or] at hlast
  cases hlast

end

/-! ### The law -/

section
variable (X : Crates) (K : AtomicKeyspace) (stream : StreamId)

/-- The genesis of the stream is there, with this config. -/
def StreamId.Founded (s : Store) (config : Bytes) : Prop :=
  ∃ genesis o, Envelope.genesis X stream config = .ok genesis ∧ s.lookup (K.root ++ stream.logKey 0) = some o ∧
    o.data = inlineBytes 0 genesis.encoded

/-- A bucket where none of the stream's events was destroyed, and what is at its genesis was put there as one. -/
structure StreamId.Rooted (B : Backend) (s : Store) : Prop where
  tagged : s.Tagged B
  fresh : stream.Fresh K s
  genesis : ∀ o, s.lookup (K.root ++ stream.logKey 0) = some o → ∃ config, stream.Founded X K s config

/-- The law of the genesis: what is there stays. -/
def genesisLaw (B : Backend) : Law Store where
  Good s := stream.Rooted X K B s
  Goes s s' := ∀ o, s.lookup (K.root ++ stream.logKey 0) = some o → s'.lookup (K.root ++ stream.logKey 0) = some o
  refl _ _ := id
  trans h₁ h₂ o ho := h₂ o (h₁ o ho)

end

section
variable {X : Crates} {K : AtomicKeyspace} {B : Backend} {stream stream' : StreamId} {s s' : Store} {o : Object} {path key : Str}
  {d : Bytes} {e : Etag} {config config' : Bytes} {p q f : UInt64} {r : Req}

/-- There is one config. -/
theorem founded_unique (h : stream.Founded X K s config) (h' : stream.Founded X K s config') : config = config' := by
  obtain ⟨genesis, o, hg, ho, hd⟩ := h
  obtain ⟨genesis', o', hg', ho', hd'⟩ := h'
  obtain rfl := Option.some.inj (ho.symm.trans ho')
  have henc := inlineBytes_injective (hd.symm.trans hd')
  obtain rfl := Envelope.encode_ok hg
  obtain rfl := Envelope.encode_ok hg'
  -- the same bytes were written for the same fields
  have hwire := congrArg X.envelope.fromSlice henc
  rw [Envelope.ofWire, Envelope.ofWire, Envelope.bytesOf, Envelope.bytesOf, X.envelope.fromSlice_toVec, X.envelope.fromSlice_toVec] at hwire
  have hpayload := congrArg WireEnvelope.payload (Option.some.inj hwire)
  have hread := congrArg Base64.decode hpayload
  rw [show (Envelope.wireOf X stream 0 genesisSchemaId genesisEventId config).payload = Base64.encode config from rfl,
    show (Envelope.wireOf X stream 0 genesisSchemaId genesisEventId config').payload = Base64.encode config' from rfl,
    Base64.decode_encode, Base64.decode_encode] at hread
  exact Option.some.inj hread

theorem founded_stable (config : Bytes) : (genesisLaw X K stream B).Stable fun s => stream.Founded X K s config := by
  rintro s s' - - hg ⟨genesis, o, hgenesis, ho, hd⟩
  exact ⟨genesis, o, hgenesis, hg o ho, hd⟩

/-- A write elsewhere. -/
theorem rooted_insert (hs : stream.Rooted X K B s) (hp : path ≠ K.root ++ stream.logKey 0)
    (hc : ∀ q, path ≠ K.root ++ incarnationKey (stream.logKey q)) (he : B.tags d e) :
    (genesisLaw X K stream B).Good (s.insert path ⟨d, e⟩) ∧ (genesisLaw X K stream B).Goes s (s.insert path ⟨d, e⟩) := by
  have hlook : AList.lookup (K.root ++ stream.logKey 0) (s.insert path ⟨d, e⟩) = s.lookup (K.root ++ stream.logKey 0) :=
    AList.lookup_insert_ne hp.symm
  refine ⟨⟨hs.tagged.insert he, fun q => ?_, fun o ho => ?_⟩, fun o ho => by rw [hlook, ho]⟩
  · rw [AList.lookup_insert_ne (hc q).symm]
    exact hs.fresh q
  · rw [hlook] at ho
    obtain ⟨config, genesis, o, hg, ho, hd⟩ := hs.genesis o ho
    exact ⟨config, genesis, o, hg, by rw [hlook, ho], hd⟩

/-- A removal elsewhere. -/
theorem rooted_erase (hs : stream.Rooted X K B s) (hp : path ≠ K.root ++ stream.logKey 0) :
    (genesisLaw X K stream B).Good (s.erase path) ∧ (genesisLaw X K stream B).Goes s (s.erase path) := by
  have hlook : AList.lookup (K.root ++ stream.logKey 0) (s.erase path) = s.lookup (K.root ++ stream.logKey 0) :=
    AList.lookup_erase_ne hp.symm
  refine ⟨⟨hs.tagged.erase, fun q => ?_, fun o ho => ?_⟩, fun o ho => by rw [hlook, ho]⟩
  · by_cases hq : K.root ++ incarnationKey (stream.logKey q) = path
    · rw [hq, AList.lookup_erase]
    · rw [AList.lookup_erase_ne hq]
      exact hs.fresh q
  · rw [hlook] at ho
    obtain ⟨config, genesis, o, hg, ho, hd⟩ := hs.genesis o ho
    exact ⟨config, genesis, o, hg, by rw [hlook, ho], hd⟩

/-- A genesis that lands. -/
theorem rooted_found {genesis : Envelope} (hs : stream.Rooted X K B s) (hnone : s.lookup (K.root ++ stream.logKey 0) = none)
    (hg : Envelope.genesis X stream config = .ok genesis) (he : B.tags (inlineBytes 0 genesis.encoded) e) :
    (genesisLaw X K stream B).Good (s.insert (K.root ++ stream.logKey 0) ⟨inlineBytes 0 genesis.encoded, e⟩) ∧
      (genesisLaw X K stream B).Goes s (s.insert (K.root ++ stream.logKey 0) ⟨inlineBytes 0 genesis.encoded, e⟩) := by
  refine ⟨⟨hs.tagged.insert he, fun q => ?_, fun o ho => ⟨config, genesis, _, hg, AList.lookup_insert .., rfl⟩⟩, fun o ho => ?_⟩
  · rw [counter_insert_event]
    exact hs.fresh q
  · rw [hnone] at ho
    cases ho

theorem rooted_uncounted (seq : UInt64) : Keyspace.Uncounted K (genesisLaw X K stream B) (stream.logKey seq) :=
  fun _ hs => hs.fresh seq

/-! ### Requests -/

theorem letsPublish_apart (hs : stream.Rooted X K B s) (hkey : key ≠ stream.logKey 0) :
    LetsPublish X K ((genesisLaw X K stream B).Lets B.delivers s) key := by
  have hpath : K.root ++ key ≠ K.root ++ stream.logKey 0 := fun h => hkey (List.append_cancel_left h)
  intro sc hsc r hw
  cases hw with
  | @control _ k hc ho d cond =>
    rw [hsc] at hc
    obtain rfl := Option.some.inj hc
    intro x s' hx
    obtain rfl | ⟨-, e, he, rfl⟩ := Backend.delivers_put hx
    · exact ⟨hs, fun _ => id⟩
    rw [show pathFrom k.slots.control = K.root ++ k.name from Key.pathFrom_control _]
    refine rooted_insert hs hpath (fun q h => ?_) he
    rw [List.append_cancel_left h] at ho
    exact not_open_incarnationKey ho
  | chunk hc i v bytes =>
    intro x s' hx
    obtain rfl | ⟨-, e, he, rfl⟩ := Backend.delivers_put hx
    · exact ⟨hs, fun _ => id⟩
    exact rooted_insert hs (Keyspace.pathFrom_chunk_ne _ _ _ _ _ _ _) (fun _ => Keyspace.pathFrom_chunk_ne _ _ _ _ _ _ _) he
  | @evict _ k hc ho e =>
    rw [hsc] at hc
    obtain rfl := Option.some.inj hc
    intro x s' hx
    obtain rfl | ⟨-, rfl⟩ := Backend.delivers_deleteIf hx
    · exact ⟨hs, fun _ => id⟩
    · exact rooted_erase hs hpath
  | delete hc =>
    cases sc <;> cases hsc <;> cases hc
  | _ => cases hsc

theorem lets_certify {scope : Str} (hs : stream.Rooted X K B s) (hw : (SpaceCall.proposeTrim scope f).Writes X.toOutside K r) :
    (genesisLaw X K stream B).Lets B.delivers s r := by
  cases hw with
  | control hc | chunk hc | evict hc => cases hc
  | delete hc => cases hc
  | certify hc hv =>
    intro x s' hx
    obtain rfl | ⟨-, e, he, rfl⟩ := Backend.delivers_put hx
    · exact ⟨hs, fun _ => id⟩
    rw [pathFrom_key hv]
    refine rooted_insert hs (fun h => ?_) (fun q h => ?_) he
    · rw [StreamId.logKey_dir] at h
      exact cert_ne hc (List.append_cancel_left h)
    · rw [StreamId.logKey_dir] at h
      have h := List.append_cancel_left h
      refine @cert_ne q f scope _ ("incarnations".toList ++ '/' :: stream.value) hc (h.trans ?_)
      unfold incarnationKey
      generalize "incarnations".toList = a
      simp

theorem lets_sweep (hs : stream.Rooted X K B s) {scope : Str}
    (hw : (SpaceCall.deleteBelow scope stream'.logPrefix f).Writes X.toOutside K r) : (genesisLaw X K stream B).Lets B.delivers s r := by
  cases hw with
  | control hc | chunk hc | evict hc => cases hc
  | delete hc => cases hc
  | @sweep _ _ pfx _ seq hp h0 hlt hv =>
    refine lets_delete hs ?_
    rw [pathFrom_key hv]
    refine rooted_erase hs fun h => ?_
    -- position 0 is not swept
    have h := List.append_cancel_left h
    rw [StreamId.logKey] at h
    have hlen : (seqComponent seq).length = (seqComponent 0).length := by rw [seqComponent_length, seqComponent_length]
    have hseq := seqComponent_injective (List.append_inj' h hlen).2
    rw [hseq] at h0
    exact UInt64.lt_irrefl 0 h0

/-! ### Calls -/

variable {Call : Type} {Res : Call → Type} {S : System Store Req Resp Call Res} {t fuel n : ℕ} {h h' : History Call Res}
  {ids : ℕ → Bytes} {genesis : Envelope}

/-- The put of the genesis by call `t` landed. -/
def Founds (X : Crates) (K : AtomicKeyspace) (stream : StreamId) (h : History Call Res) (t : ℕ) (config : Bytes) : Prop :=
  ∃ i genesis y, Envelope.genesis X stream config = .ok genesis ∧ ValidPath (stream.logKey 0) ∧
    h.Asked i t (.put (K.root ++ stream.logKey 0) (inlineBytes 0 genesis.encoded) none) (.ok y)

theorem Founds.mono (hf : Founds X K stream h t config) (hle : h ≤ h') : Founds X K stream h' t config := by
  obtain ⟨i, genesis, y, hg, hv, ha⟩ := hf
  exact ⟨i, genesis, y, hg, hv, ha.mono hle⟩

/-- A creation of a genesis founds the stream, or fails. -/
theorem safe_found (hS : S.exec = B.delivers) (hI : (genesisLaw X K stream B).Inv B.delivers h)
    (hg : Envelope.genesis X stream config = .ok genesis) :
    Safe S ((genesisLaw X K stream B).Inv B.delivers) t
      (Keyspace.create X.toOutside K fuel (stream.logKey 0) genesis.encoded ids).run
      (fun r h' => r = .ok () → Founds X K stream h' t config ∧ stream.Founded X K h'.store config) h := by
  have hshort := encoded_short hg
  by_cases hv : ValidPath (stream.logKey 0)
  · refine (Keyspace.safe_create hS (rooted_uncounted 0) hI hshort fun _ _ h₁ _ hI₁ => ?_).imp fun r h₁ hle₁ hI₁ hcreated => ?_
    · refine lets_create hI₁.state fun hnone e he => ?_
      rw [pathFrom_key hv] at hnone ⊢
      exact rooted_found hI₁.state hnone hg he
    · rintro rfl
      cases hcreated with | @landed i y hi ha => ?_
      obtain ⟨-, e, -, hstore, -⟩ := Backend.delivers_put_ok (hI₁.exec ha)
      rw [pathFrom_key hv] at hstore
      have hfounded : stream.Founded X K (h₁.storeAt (i + 1)) config := by
        rw [hstore]
        exact ⟨genesis, _, hg, AList.lookup_insert .., rfl⟩
      have hnow := (founded_stable config).storeAt hI₁ ha.lt le_rfl hfounded
      rw [Hist.storeAt_now] at hnow
      exact ⟨⟨i, genesis, y, hg, hv, ha⟩, hnow⟩
  · unfold Keyspace.create
    cases Keyspace.ensureNotReservedKey (stream.logKey 0) with
    | error e => exact Safe.ret fun _ _ hr => by cases hr
    | ok u =>
      have hmax : ¬ genesis.encoded.length > Keyspace.maxLogicalBytes := by
        have : Keyspace.inlineMax ≤ Keyspace.maxLogicalBytes := by decide
        omega
      show Safe S _ t (if genesis.encoded.length > Keyspace.maxLogicalBytes then _ else _ : Keyspace.KeyOp Unit).run _ _
      rw [if_neg hmax]
      cases hp : K.objectKey (stream.logKey 0) with
      | error e => exact Safe.ret fun _ _ hr => by cases hr
      | ok path => exact absurd (AtomicKeyspace.objectKey_ok hp).2 hv

/-- What a read finds at the genesis was put there as one. -/
theorem founded_of_shows {bytes : Bytes} (hs : stream.Rooted X K B s) (ho : s.lookup (K.root ++ stream.logKey 0) = some o)
    (hshows : Keyspace.Shows X.toOutside (stream.logKey 0) o bytes) :
    ∃ config genesis, Envelope.genesis X stream config = .ok genesis ∧ bytes = genesis.encoded ∧ stream.Founded X K s config := by
  obtain ⟨config, genesis, o', hg, ho', hd⟩ := hs.genesis o ho
  obtain rfl := Option.some.inj (ho.symm.trans ho')
  obtain ⟨c, hc, hinl⟩ := hshows
  have hread : Keyspace.ControlEnvelope.decode X.toOutside (stream.logKey 0) o.data = .ok (.inline ⟨0, 0, genesis.encoded⟩) :=
    Keyspace.ControlEnvelope.decode_inline.2 hd
  cases hc.symm.trans hread
  exact ⟨config, genesis, hg, (hinl _ rfl).symm, genesis, o, hg, ho, hd⟩

/-- What a call on the genesis has learnt when it returns. -/
def StreamCall.Settled (X : Crates) (K : AtomicKeyspace) (stream : StreamId) (t : ℕ) (h : History Call Res) :
    (c : StreamCall) → c.Res → Prop
  | .createStream minted config _, res => minted = stream → ∀ r, res = .ok r →
      Founds X K stream h t config ∧ stream.Founded X K h.store config
  | .createStreamWithId stream' config _, res => stream' = stream → ∀ outcome, res = .ok outcome →
      (outcome = .created → Founds X K stream h t config) ∧ stream.Founded X K h.store config
  | .readConfig stream', res => stream' = stream → ∀ found, res = .ok found →
      (∀ config, found = some config → stream.Founded X K h.store config) ∧
        (found = none → h.Since t fun s => s.lookup (K.root ++ stream.logKey 0) = none)
  | _, _ => True

theorem genesis_createStream (hS : S.exec = B.delivers) (hI : (genesisLaw X K stream B).Inv B.delivers h) :
    Safe S ((genesisLaw X K stream B).Inv B.delivers) t (createStream X K fuel ids stream config).run
      (fun r h' => ∀ minted, r = .ok minted → Founds X K stream h' t config ∧ stream.Founded X K h'.store config) h := by
  refine safe_check (fun e _ h' _ => by simp) fun genesis hg => ?_
  refine safe_mapErr_bind hI (safe_found hS hI hg) (fun e h' _ _ _ => by simp) fun u h₁ hle₁ hI₁ hfound => ?_
  refine Safe.ret fun h₂ hr minted _ => ?_
  obtain ⟨hf, hfounded⟩ := hfound rfl
  exact ⟨hf.mono hr.le, (founded_stable config).store hr.inv hr.le hfounded⟩

theorem genesis_createStreamWithId (hS : S.exec = B.delivers) (hI : (genesisLaw X K stream B).Inv B.delivers h) :
    Safe S ((genesisLaw X K stream B).Inv B.delivers) t (createStreamWithId X K fuel ids stream config).run
      (fun r h' => ∀ outcome, r = .ok outcome →
        (outcome = .created → Founds X K stream h' t config) ∧ stream.Founded X K h'.store config) h := by
  refine safe_check (fun e _ h' _ => by simp) fun _ _ => safe_check (fun e _ h' _ => by simp) fun genesis hg => ?_
  have hg := mapError_ok hg
  refine Safe.seqAttempt hI (safe_found hS hI hg) ?_
  rintro (e | u) h₁ hle₁ hI₁ hfound
  · cases e with
    | alreadyExists key =>
      refine safe_mapErr_bind hI₁ (Keyspace.safe_get hS) (fun e h' _ _ _ => by simp) fun incumbent h₂ hle₂ hI₂ hgot => ?_
      -- the incumbent's bytes are the caller's own
      cases incumbent with
      | none => exact Safe.ret fun h' _ outcome hok => by cases hok
      | some bytes =>
        cases hgot with | shows hv => ?_
        unfold judgeIncumbent
        dsimp only
        split
        · next hbytes =>
          refine Safe.ret fun h₃ hr outcome hok => ?_
          cases hok
          refine ⟨fun h => (by cases h), ?_⟩
          obtain ⟨i, -, hi, hgood, o, ho, hshows⟩ := hI₂.good_since hv
          obtain ⟨config', genesis', hg', hbytes', hfounded⟩ := founded_of_shows hgood ho hshows
          have hsame : stream.Founded X K (h₂.storeAt i) config := by
            obtain ⟨genesis'', o', hg'', ho', hd⟩ := hfounded
            obtain rfl := Except.ok.inj (hg'.symm.trans hg'')
            exact ⟨genesis, o', hg, ho', by rw [hd, ← hbytes', hbytes]⟩
          have hnow := (founded_stable config).storeAt hI₂ hi le_rfl hsame
          rw [Hist.storeAt_now] at hnow
          exact (founded_stable config).store hr.inv hr.le hnow
        · split
          · exact Safe.ret fun h' _ outcome hok => by cases hok
          · exact Safe.ret fun h' _ outcome hok => by cases hok
    | _ => exact Safe.ret fun h' _ outcome hok => by cases hok
  · refine Safe.ret fun h₂ hr outcome _ => ?_
    obtain ⟨hf, hfounded⟩ := hfound rfl
    exact ⟨fun _ => hf.mono hr.le, (founded_stable config).store hr.inv hr.le hfounded⟩

theorem genesis_readConfig (hS : S.exec = B.delivers) (hI : (genesisLaw X K stream B).Inv B.delivers h) :
    Safe S ((genesisLaw X K stream B).Inv B.delivers) t (readConfig X K stream).run
      (fun r h' => ∀ found, r = .ok found → (∀ config, found = some config → stream.Founded X K h'.store config) ∧
        (found = none → h'.Since h.now fun s => s.lookup (K.root ++ stream.logKey 0) = none)) h := by
  refine safe_mapErr_bind hI (Keyspace.safe_get hS) (fun e h' _ _ _ => by simp) ?_
  rintro (_ | bytes) h₁ hle₁ hI₁ hgot
  · cases hgot with | absent ha => ?_
    refine Safe.ret fun h₂ hr found hok => ?_
    cases hok
    exact ⟨fun _ h => (by cases h), fun _ => ha.mono hr.le le_rfl⟩
  · cases hgot with | shows hv => ?_
    refine safe_check (fun e _ h' _ => by simp) fun envelope henv => ?_
    refine Safe.ret fun h₂ hr found hok => ?_
    cases hok
    refine ⟨fun config hconfig => ?_, fun h => (by cases h)⟩
    cases hconfig
    obtain ⟨i, -, hi, hgood, o, ho, hshows⟩ := hI₁.good_since hv
    obtain ⟨config, genesis, hg, rfl, hfounded⟩ := founded_of_shows hgood ho hshows
    -- what is verified is what was encoded
    have hpayload : envelope.payload = config := by
      have hread := verify_ok henv
      obtain rfl := Envelope.encode_ok hg
      obtain ⟨wire, payload, hw, hverified, rfl⟩ := Envelope.decodeAndVerify_eq_some.1 hread
      cases (X.envelope.fromSlice_toVec _).symm.trans hw
      exact Option.some.inj (hverified.decoded.symm.trans (Base64.decode_encode config))
    rw [hpayload]
    have hnow := (founded_stable config).storeAt hI₁ hi le_rfl hfounded
    rw [Hist.storeAt_now] at hnow
    exact (founded_stable config).store hr.inv hr.le hnow

/-- The migrated entries are behind the genesis. -/
theorem pos_of_checkDense {position : ℕ} {entries : List MigrationEntry} (h : checkDense position entries = .ok ()) :
    ∀ entry ∈ entries, 0 < entry.seq := by
  induction entries generalizing position with
  | nil => simp
  | cons entry entries ih =>
    rw [checkDense] at h
    split at h
    · cases h
    next hseq =>
    intro entry' hmem
    rcases List.mem_cons.1 hmem with rfl | hmem
    · rw [UInt64.lt_iff_toNat_lt, not_not.1 hseq]
      exact Nat.succ_pos _
    · exact ih h entry' hmem

/-- A consumer whose cursor is not kept at the genesis. -/
def StreamCall.Plain (stream : StreamId) : StreamCall → Prop
  | .advanceCursor stream' consumer _ _ => stream'.cursorKey consumer ≠ .ok (stream.logKey 0)
  | _ => True

/-- The genesis is safe from the request in every bucket. -/
def Spares (X : Crates) (K : AtomicKeyspace) (B : Backend) (stream : StreamId) (r : Req) : Prop :=
  ∀ s, stream.Rooted X K B s → (genesisLaw X K stream B).Lets B.delivers s r

theorem spares_reads (r : Req) (hr : K.Reads r) : Spares X K B stream r := fun _ hs => lets_looks hs (Keyspace.looks_of_reads r hr)

theorem spares_publish (hkey : key ≠ stream.logKey 0) : LetsPublish X K (Spares X K B stream) key :=
  fun sc hsc r hw _ hs => letsPublish_apart hs hkey sc hsc r hw

theorem safe_spares {α : Type} {p : Prog Req Resp α} (hS : S.exec = B.delivers) (hp : p.Every (Spares X K B stream) fun _ => True) :
    Safe S ((genesisLaw X K stream B).Inv B.delivers) t p (fun _ _ => True) h :=
  Law.safe_of_every hS (fun s _ hs hr => hr s hs) hp

/-- A call that publishes nothing at the genesis. -/
theorem genesis_aside (hS : S.exec = B.delivers) (c : StreamCall) (hc : ∀ key, c.Publishes key → key ≠ stream.logKey 0) :
    Safe S ((genesisLaw X K stream B).Inv B.delivers) t (c.prog X K fuel) (fun _ _ => True) h := by
  refine Law.safe_of_every (P := c.Asks X K) hS (fun s r hs hr => ?_) c.asks
  rcases hr with hr | ⟨sc, huses, hw⟩
  · exact lets_looks hs (Keyspace.looks_of_reads r hr)
  · cases huses with
    | publish hkey hsc => exact letsPublish_apart hs (hc _ hkey) sc hsc r hw
    | certify => exact lets_certify hs hw
    | sweep => exact lets_sweep hs hw

theorem genesis_call (hS : S.exec = B.delivers) (hI : (genesisLaw X K stream B).Inv B.delivers h) (hn : t ≤ h.now) {c : StreamCall}
    (hc : c.Plain stream) :
    Safe S ((genesisLaw X K stream B).Inv B.delivers) t (c.prog X K fuel) (fun res h' => c.Settled X K stream t h' res) h := by
  have hevent : ∀ {stream' : StreamId} {seq : UInt64}, 0 < seq → stream'.logKey seq ≠ stream.logKey 0 := by
    intro stream' seq hseq he
    rw [(logKey_inj he).2] at hseq
    exact UInt64.lt_irrefl 0 hseq
  cases c with
  | createStream minted config ids =>
    by_cases hs : minted = stream
    · subst hs
      exact (genesis_createStream hS hI).imp fun res h₁ _ _ hq _ => hq
    · refine (genesis_aside hS _ ?_).imp fun _ _ _ _ _ he => absurd he hs
      rintro key (_ | _) he
      exact hs (logKey_inj he).1
  | createStreamWithId stream' config ids =>
    by_cases hs : stream' = stream
    · subst hs
      exact (genesis_createStreamWithId hS hI).imp fun res h₁ _ _ hq _ => hq
    · refine (genesis_aside hS _ ?_).imp fun _ _ _ _ _ he => absurd he hs
      rintro key (_ | _) he
      exact hs (logKey_inj he).1
  | readConfig stream' =>
    by_cases hs : stream' = stream
    · subst hs
      refine (genesis_readConfig hS hI).imp fun res h₁ _ _ hq _ found hok => ?_
      exact ⟨(hq found hok).1, fun hnone => ((hq found hok).2 hnone).mono le_rfl hn⟩
    · refine (genesis_aside hS _ ?_).imp fun _ _ _ _ _ he => absurd he hs
      rintro key (_ | _)
  | append stream' schemaId stableEventId payload ids =>
    exact (safe_spares hS (every_append spares_reads (spares_publish tailKey_ne_logKey) (fun _ hseq => spares_publish (hevent hseq)) ..)).imp
      fun _ _ _ _ _ => trivial
  | appendExpected predecessor schemaId stableEventId payload ids =>
    by_cases hs : predecessor.streamId = stream
    · subst hs
      refine (safe_appendExpected hS rooted_uncounted hI fun h₁ targetSeq envelope _ hI₁ _ hadmit hv => ?_).imp fun _ _ _ _ _ => trivial
      have htarget := toNat_of_checkedSucc (admit_ok hadmit).1
      have hpos : 0 < targetSeq := by
        rw [UInt64.lt_iff_toNat_lt, htarget]
        exact Nat.succ_pos _
      refine lets_create hI₁.state fun _ e he => ?_
      rw [pathFrom_key hv]
      exact rooted_insert hI₁.state (fun h => hevent hpos (List.append_cancel_left h))
        (fun q h => StreamId.logKey_ne_incarnationKey (List.append_cancel_left h)) he
    · refine (genesis_aside hS _ ?_).imp fun _ _ _ _ _ => trivial
      rintro key (_ | _) he
      exact hs (logKey_inj he).1
  | migrateLog stream' entries ids =>
    have hevery : (migrateLog X K fuel ids stream' entries).run.Every (Spares X K B stream) fun _ => True := by
      cases hd : checkDense 0 (orderedEntries entries) with
      | error e =>
        unfold migrateLog
        dsimp only
        rw [hd]
        trivial
      | ok u =>
        have hpos := pos_of_checkDense hd
        refine every_migrateLog_of spares_reads (spares_publish tailKey_ne_logKey) fun entry hmem => ?_
        have hseq : 0 < entry.seq := hpos entry ((List.mem_insertionSort _).2 hmem)
        exact every_migrateEntry spares_reads fun envelope _ => every_create spares_reads (spares_publish (hevent hseq)) _
    exact (safe_spares hS hevery).imp fun _ _ _ _ _ => trivial
  | advanceCursor stream' consumer targetSeq ids =>
    refine (genesis_aside hS _ ?_).imp fun _ _ _ _ _ => trivial
    rintro key hkey rfl
    cases hkey with
    | cursor _ _ hk => exact hc hk
  | _ =>
    refine (genesis_aside hS _ ?_).imp fun _ _ _ _ _ => trivial
    rintro key (_ | _)
    all_goals first | exact tailKey_ne_logKey | exact sealKey_ne_logKey

end

/-- The calls that found a stream with a config. -/
def StreamCall.FoundedBy (stream : StreamId) (config : Bytes) : (c : StreamCall) → c.Res → Prop
  | .createStream minted config' _, res => minted = stream ∧ config' = config ∧ ∃ r, res = .ok r
  | .createStreamWithId stream' config' _, res => stream' = stream ∧ config' = config ∧ res = .ok .created
  | _, _ => False

/-- The calls that are told a stream has a config. -/
def StreamCall.Tells (stream : StreamId) (config : Bytes) : (c : StreamCall) → c.Res → Prop
  | .createStream minted config' _, res => minted = stream ∧ config' = config ∧ ∃ r, res = .ok r
  | .createStreamWithId stream' config' _, res => stream' = stream ∧ config' = config ∧ ∃ outcome, res = .ok outcome
  | .readConfig stream', res => stream' = stream ∧ res = .ok (some config)
  | _, _ => False

section
variable {X : Crates} {K : AtomicKeyspace} {B : Backend} {stream : StreamId} {fuel t t' i i' : ℕ} {Call : Type} {Res : Call → Type}
  {h : History Call Res} {config config' : Bytes} {c : StreamCall} {res : c.Res}

theorem founds_of_foundedBy (hs : c.Settled X K stream t h res) (hf : c.FoundedBy stream config res) : Founds X K stream h t config := by
  cases c with
  | createStream minted config' ids =>
    obtain ⟨hm, rfl, r, hr⟩ := hf
    exact (hs hm r hr).1
  | createStreamWithId stream' config' ids =>
    obtain ⟨hm, rfl, hr⟩ := hf
    exact (hs hm _ hr).1 rfl
  | _ => exact hf.elim

theorem founded_of_tells (hs : c.Settled X K stream t h res) (ht : c.Tells stream config res) : stream.Founded X K h.store config := by
  cases c with
  | createStream minted config' ids =>
    obtain ⟨hm, rfl, r, hr⟩ := ht
    exact (hs hm r hr).2
  | createStreamWithId stream' config' ids =>
    obtain ⟨hm, rfl, outcome, hr⟩ := ht
    exact (hs hm outcome hr).2
  | readConfig stream' =>
    obtain ⟨hm, hr⟩ := ht
    exact (hs hm _ hr).1 config rfl
  | _ => exact ht.elim

theorem genesis_kept (hI : (genesisLaw X K stream B).Inv B.delivers h) (hij : i ≤ i') (hj : i' ≤ h.now) :
    (genesisLaw X K stream B).Goes (h.storeAt i) (h.storeAt i') :=
  hI.rel (genesisLaw X K stream B).refl (genesisLaw X K stream B).trans (fun _ _ _ _ => id) hij hj

/-- The genesis lands once. -/
theorem not_founds_twice {d d' : Bytes} {y y' : Option Etag} (hI : (genesisLaw X K stream B).Inv B.delivers h)
    (hv : ValidPath (stream.logKey 0)) (ha : h.Asked i t (.put (K.root ++ stream.logKey 0) d none) (.ok y))
    (ha' : h.Asked i' t' (.put (K.root ++ stream.logKey 0) d' none) (.ok y')) : ¬ i < i' := by
  intro hlt
  obtain ⟨-, e, -, hstore, -⟩ := Backend.delivers_put_ok (hI.exec ha)
  obtain ⟨hnone, -⟩ := Backend.delivers_put_ok (hI.exec ha')
  rw [pathFrom_key hv] at hstore hnone
  have hthere := genesis_kept hI hlt ha'.lt.le _ (by rw [hstore]; exact AList.lookup_insert ..)
  rw [Store.accepts_none.1 hnone] at hthere
  cases hthere

/-- The genesis of a stream is decided once. What is at position 0 never changes or disappears; at most one call founds the
stream; a call that creates it, finds it or reads its config was told the one config there ever is, and no read that starts
later finds none. -/
theorem genesis_once {w : World Store Req Resp {c : StreamCall // c.Plain stream} fun c => c.1.Res}
    (hw : Reach (streamSystem X K B fuel (StreamCall.Plain stream) (stream.Rooted X K B)) w) :
    (∀ i j, i ≤ j → j ≤ w.hist.now → ∀ o, (w.hist.storeAt i).lookup (K.root ++ stream.logKey 0) = some o →
      (w.hist.storeAt j).lookup (K.root ++ stream.logKey 0) = some o) ∧
    (∀ i i' t t' c c' res res' config config', w.hist.Done i t c res → w.hist.Done i' t' c' res' →
      c.1.FoundedBy stream config res → c'.1.FoundedBy stream config' res' → t = t') ∧
    ∀ i t c res config, w.hist.Done i t c res → c.1.Tells stream config res →
      (∀ j, i ≤ j → j ≤ w.hist.now → stream.Founded X K (w.hist.storeAt j) config) ∧
      (∀ j config', j ≤ w.hist.now → stream.Founded X K (w.hist.storeAt j) config' → config' = config) ∧
      ∀ i' t', i ≤ t' → ¬ w.hist.Done i' t' ⟨.readConfig stream, trivial⟩ (.ok none) := by
  obtain ⟨hI, hdone⟩ := @Law.reach _ _ _ _ _ (genesisLaw X K stream B) _ _ (fun t c res h => c.1.Settled X K stream t h res) w
    (fun _ hs => hs) (fun h c hI => genesis_call rfl (hI.start (genesisLaw X K stream B).refl c) (Hist.now_le Hist.le_push) c.2) hw
  refine ⟨fun i j hij hj => genesis_kept hI hij hj, ?_, ?_⟩
  · intro i i' t t' c c' res res' config config' hd hd' hf hf'
    obtain ⟨h₁, hle₁, -, hs₁⟩ := hdone i t c res hd
    obtain ⟨h₂, hle₂, -, hs₂⟩ := hdone i' t' c' res' hd'
    obtain ⟨k, genesis, y, -, hv, ha⟩ := (founds_of_foundedBy hs₁ hf).mono hle₁
    obtain ⟨k', genesis', y', -, -, ha'⟩ := (founds_of_foundedBy hs₂ hf').mono hle₂
    obtain rfl : k = k' := by
      have hk := not_founds_twice hI hv ha ha'
      have hk' := not_founds_twice hI hv ha' ha
      omega
    -- one step is one call's
    obtain ⟨e, he, hl⟩ := ha
    obtain ⟨e', he', hl'⟩ := ha'
    obtain rfl := Option.some.inj (he.symm.trans he')
    rw [hl] at hl'
    injection hl'
  · intro i t c res config hd ht
    obtain ⟨h₁, hle₁, rfl, hs₁⟩ := hdone i t c res hd
    have hfounded := founded_of_tells hs₁ ht
    rw [Hist.store_eq_storeAt hle₁] at hfounded
    have hkept : ∀ j, h₁.now ≤ j → j ≤ w.hist.now → stream.Founded X K (w.hist.storeAt j) config :=
      fun j hij hj => (founded_stable config).storeAt hI hij hj hfounded
    refine ⟨hkept, fun j config' hj hfounded' => ?_, fun i' t' hit hd' => ?_⟩
    · have hnow := (founded_stable config').storeAt hI hj le_rfl hfounded'
      exact founded_unique hnow (hkept _ (Hist.now_le hle₁) le_rfl)
    · obtain ⟨h₂, hle₂, -, hs₂⟩ := hdone i' t' _ _ hd'
      obtain ⟨k, hk, hkn, hnone⟩ := (hs₂ rfl none rfl).2 rfl
      rw [← Hist.storeAt_mono hle₂ hkn] at hnone
      obtain ⟨genesis, o, -, ho, -⟩ := hkept k (hit.trans hk) (hkn.trans (Hist.now_le hle₂))
      rw [hnone] at ho
      cases ho

end

/-- The one-letter stream is created with one config, with another, and with the first again. -/
def letterFounding : World Store Req Resp {c : StreamCall // c.Plain letterStream} fun c => c.1.Res :=
  let S := streamSystem Serde.crates Keyspace.letterSpace .honest 9 (StreamCall.Plain letterStream)
    (letterStream.Rooted Serde.crates Keyspace.letterSpace .honest)
  let create (config : Bytes) : {c : StreamCall // c.Plain letterStream} := ⟨.createStreamWithId letterStream config fun _ => [], trivial⟩
  (((⟨.empty ∅, fun _ => none⟩ : World Store Req Resp _ _).alone S.prog (Store.serve contentTag) (create [1]) 10).alone S.prog
    (Store.serve contentTag) (create [2]) 10).alone S.prog (Store.serve contentTag) (create [1]) 10

/-- What a creation that returns at a step said. -/
def createdAt {stream : StreamId} (h : History {c : StreamCall // c.Plain stream} fun c => c.1.Res) (i : ℕ) :
    Option (StreamId × Bytes × Option CreateStreamOutcome) :=
  match h.steps[i]? with
  | some ⟨.done _ ⟨.createStreamWithId stream' config _, _⟩ r, _, _⟩ => some (stream', config, r.toOption)
  | _ => none

theorem tells_of_createdAt {stream stream' : StreamId} {h : History {c : StreamCall // c.Plain stream} fun c => c.1.Res} {i : ℕ}
    {config : Bytes} {outcome : CreateStreamOutcome} (hr : createdAt h i = some (stream', config, some outcome)) :
    ∃ t c res, h.Done i t c res ∧ c.1.Tells stream' config res := by
  unfold createdAt at hr
  split at hr
  · next t stream' config' ids hc r _ _ he =>
    simp only [Option.some.injEq, Prod.mk.injEq] at hr
    obtain ⟨rfl, rfl, hr⟩ := hr
    exact ⟨t, _, r, ⟨_, he, rfl⟩, rfl, rfl, outcome, Envelope.toOption_eq_some.1 hr⟩
  · cases hr

/-- The first config is the one of the stream; the other was refused. -/
theorem genesis_once_letter : createdAt letterFounding.hist 4 = some (letterStream, [1], some .created) ∧
    createdAt letterFounding.hist 9 = some (letterStream, [2], none) ∧
    createdAt letterFounding.hist 14 = some (letterStream, [1], some .existing) ∧
    letterStream.Founded Serde.crates Keyspace.letterSpace letterFounding.hist.store [1] := by
  have hrun : letterFounding.hist.now = 15 ∧ createdAt letterFounding.hist 4 = some (letterStream, [1], some .created) ∧
      createdAt letterFounding.hist 9 = some (letterStream, [2], none) ∧
      createdAt letterFounding.hist 14 = some (letterStream, [1], some .existing) := by decide +kernel
  have hempty : letterStream.Rooted Serde.crates Keyspace.letterSpace .honest ∅ :=
    ⟨fun p o h => (by cases h), fun _ => rfl, fun o ho => (by cases ho)⟩
  have hreach : Reach (streamSystem Serde.crates Keyspace.letterSpace .honest 9 (StreamCall.Plain letterStream)
      (letterStream.Rooted Serde.crates Keyspace.letterSpace .honest)) letterFounding :=
    (((Reach.init hempty).alone Backend.delivers_honest _ 10).alone Backend.delivers_honest _ 10).alone Backend.delivers_honest _ 10
  obtain ⟨hnow, hfirst, hsecond, hthird⟩ := hrun
  refine ⟨hfirst, hsecond, hthird, ?_⟩
  obtain ⟨t, c, res, hd, ht⟩ := tells_of_createdAt hfirst
  rw [← Hist.storeAt_now]
  exact ((genesis_once hreach).2.2 4 t c res [1] hd ht).1 _ (by omega) le_rfl

end YeetzS3.Streams
