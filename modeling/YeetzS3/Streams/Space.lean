import YeetzS3.Streams.Told

/-!
# Where the objects of a stream live

The keys of one stream's events, their counters, its certificates and its tail hint are all different: what a write at one
of them changes is read off here, once. `StreamId.Region` holds the events after the genesis, the counters and the certificates.
-/

namespace YeetzS3.Streams

open Conc
open Keyspace (AtomicKeyspace SpaceCall Key ValidPath incarnationKey tombstoneKey)

namespace StreamId

variable (stream : StreamId) (K : AtomicKeyspace)

/-- The events of a stream after its genesis, the counters of its events, and its certificates. -/
def Region : YeetzS3.Region := fun p => ∃ q, (0 < q ∧ p = K.root ++ stream.logKey q) ∨ p = K.root ++ incarnationKey (stream.logKey q) ∨
  p = K.root ++ (stream.certPrefix ++ seqComponent q)

variable {stream K} {s : Store} {o : Object} {p q seq : UInt64}

theorem logPrefix_length : stream.logPrefix.length = stream.value.length + 5 := by
  unfold logPrefix
  rw [List.length_append, show "/log/".toList.length = 5 from by decide]

theorem logKey_length : (stream.logKey q).length = stream.value.length + 25 := by
  rw [logKey, List.length_append, logPrefix_length, seqComponent_length]

theorem certPrefix_length : stream.certPrefix.length = stream.value.length + 7 := by
  unfold certPrefix
  rw [List.length_append, List.length_cons, List.length_append, show "trims".toList.length = 5 from by decide, List.length_singleton]

theorem tailKey_length : stream.tailKey.length = stream.value.length + 5 := by
  unfold tailKey
  rw [List.length_append, show "/tail".toList.length = 5 from by decide]

theorem logKey_injective : Function.Injective stream.logKey := fun _ _ h => seqComponent_injective (List.append_cancel_left h)

theorem logKey_ne_incarnationKey : stream.logKey p ≠ incarnationKey (stream.logKey q) := fun h => by
  have := congrArg List.length h
  rw [Keyspace.incarnationKey_length, logKey_length, logKey_length] at this
  omega

theorem logKey_ne_cert : stream.logKey p ≠ stream.certPrefix ++ seqComponent q := fun h => by
  have := congrArg List.length h
  rw [List.length_append, certPrefix_length, logKey_length, seqComponent_length] at this
  omega

theorem incarnationKey_ne_cert : incarnationKey (stream.logKey p) ≠ stream.certPrefix ++ seqComponent q := fun h => by
  have := congrArg List.length h
  rw [List.length_append, certPrefix_length, Keyspace.incarnationKey_length, logKey_length, seqComponent_length] at this
  omega

theorem not_region_tail : ¬ stream.Region K (K.root ++ stream.tailKey) := by
  rintro ⟨q, ⟨-, h⟩ | h | h⟩
  all_goals
    have := congrArg List.length (List.append_cancel_left h)
    first
      | rw [tailKey_length, logKey_length] at this
      | rw [tailKey_length, Keyspace.incarnationKey_length, logKey_length] at this
      | rw [tailKey_length, List.length_append, certPrefix_length, seqComponent_length] at this
    omega

theorem not_region_of_chunk {path : Str} (h : ∀ q, path ≠ K.root ++ q) : ¬ stream.Region K path := by
  rintro ⟨q, ⟨-, rfl⟩ | rfl | rfl⟩
  all_goals exact h _ rfl

theorem not_region_genesis : ¬ stream.Region K (K.root ++ stream.logKey 0) := by
  rintro ⟨q, ⟨hq, h⟩ | h | h⟩
  · rw [← logKey_injective (List.append_cancel_left h)] at hq
    exact absurd hq (UInt64.lt_irrefl 0)
  · exact logKey_ne_incarnationKey (List.append_cancel_left h)
  · exact logKey_ne_cert (List.append_cancel_left h)

end StreamId

/-! ### Writes of a publication -/

/-- What publishes at a key writes there, or a chunk. -/
theorem within_of_publishes {X : Crates} {K : AtomicKeyspace} {sc : SpaceCall} {key : Str} {r : Req} (hs : sc.publishes = some key)
    (hw : sc.Writes X.toOutside K r) : r.Within fun p => p = K.root ++ key ∨ ∀ q, p ≠ K.root ++ q := by
  cases hw with
  | control hc =>
    rw [hs] at hc
    cases hc
    exact .inl (Key.pathFrom_control _)
  | chunk hc => exact .inr fun q => Keyspace.pathFrom_chunk_ne _ _ _ _ _ _ _
  | evict hc =>
    rw [hs] at hc
    cases hc
    exact .inl rfl
  | delete hc =>
    cases sc <;> cases hs <;> cases hc
  | _ => cases hs

/-- A law over the events of a stream lets keys be written that are none of it. -/
theorem letsPublish_of_not {X : Crates} {K : AtomicKeyspace} {B : Backend} {stream : StreamId} {L : Law Store} {key : Str}
    (hL : LawOver B (stream.Region K) L) (hkey : ¬ stream.Region K (K.root ++ key)) {s : Store} (hs : L.Good s) :
    LetsPublish X K (L.Lets B.delivers s) key := by
  intro sc hsc r hw
  refine hL.lets hs (within_of_publishes hsc hw) ?_
  rintro p (rfl | hp)
  · exact hkey
  · exact StreamId.not_region_of_chunk hp

/-- The tail hint is one of them. -/
theorem letsPublish_tail {X : Crates} {K : AtomicKeyspace} {B : Backend} {stream : StreamId} {L : Law Store}
    (hL : LawOver B (stream.Region K) L) {s : Store} (hs : L.Good s) : LetsPublish X K (L.Lets B.delivers s) stream.tailKey :=
  letsPublish_of_not hL StreamId.not_region_tail hs

/-! ### What a write changes -/

section
variable {stream : StreamId} {K : AtomicKeyspace} {s : Store} {o : Object} {p q seq f : UInt64}

theorem pathFrom_key {key : Str} (hv : ValidPath key) : pathFrom (K.root ++ key) = K.root ++ key :=
  Keyspace.pathFrom_of_valid (Keyspace.AtomicKeyspace.validPath_root_append hv)

theorem lookup_insert_key {key key' : Str} (hne : key' ≠ key) :
    AList.lookup (K.root ++ key') (s.insert (K.root ++ key) o) = s.lookup (K.root ++ key') :=
  AList.lookup_insert_ne fun h => hne (List.append_cancel_left h)

theorem lookup_erase_key {key key' : Str} (hne : key' ≠ key) :
    AList.lookup (K.root ++ key') (s.erase (K.root ++ key)) = s.lookup (K.root ++ key') :=
  AList.lookup_erase_ne fun h => hne (List.append_cancel_left h)

/-- An event that lands is the only one that appears. -/
theorem present_insert_event : stream.Present K (s.insert (K.root ++ stream.logKey p) o) q ↔ q = p ∨ stream.Present K s q := by
  by_cases h : q = p
  · subst h
    simp [StreamId.Present]
  · rw [StreamId.Present, lookup_insert_key fun he => h (StreamId.logKey_injective he), or_iff_right h]
    rfl

theorem certified_insert_event :
    K.Certified (s.insert (K.root ++ stream.logKey p) o) stream.certPrefix f ↔ K.Certified s stream.certPrefix f := by
  rw [AtomicKeyspace.Certified, lookup_insert_key fun he => StreamId.logKey_ne_cert he.symm]
  rfl

theorem counter_insert_event : AList.lookup (K.root ++ incarnationKey (stream.logKey q)) (s.insert (K.root ++ stream.logKey p) o) =
    s.lookup (K.root ++ incarnationKey (stream.logKey q)) :=
  lookup_insert_key fun he => StreamId.logKey_ne_incarnationKey he.symm

theorem present_insert_cert : stream.Present K (s.insert (K.root ++ (stream.certPrefix ++ seqComponent f)) o) q ↔ stream.Present K s q := by
  rw [StreamId.Present, lookup_insert_key fun he => StreamId.logKey_ne_cert he]
  rfl

theorem certified_insert_cert : K.Certified (s.insert (K.root ++ (stream.certPrefix ++ seqComponent f)) o) stream.certPrefix q ↔
    q = f ∨ K.Certified s stream.certPrefix q := by
  by_cases h : q = f
  · subst h
    simp [AtomicKeyspace.Certified]
  · rw [AtomicKeyspace.Certified, lookup_insert_key fun he => h (seqComponent_injective (List.append_cancel_left he)), or_iff_right h]
    rfl

theorem counter_insert_cert : AList.lookup (K.root ++ incarnationKey (stream.logKey q)) (s.insert (K.root ++ (stream.certPrefix ++ seqComponent f)) o) =
    s.lookup (K.root ++ incarnationKey (stream.logKey q)) :=
  lookup_insert_key fun he => StreamId.incarnationKey_ne_cert he

/-- The paths of a sweep of the log are an event, its tombstone or its counter. -/
theorem swept_cases {pfx : Str} (hp : pfx ∈ Keyspace.sweptPrefixes stream.logPrefix) :
    pfx ++ seqComponent seq = stream.logKey seq ∨ pfx ++ seqComponent seq = tombstoneKey (stream.logKey seq) ∨
      pfx ++ seqComponent seq = incarnationKey (stream.logKey seq) := by
  have hmirror : ∀ r a b : Str, (r ++ '/' :: a) ++ b = r ++ '/' :: (a ++ b) := by simp
  simp only [Keyspace.sweptPrefixes, List.mem_cons, List.not_mem_nil, or_false] at hp
  rcases hp with rfl | rfl | rfl
  · exact .inl rfl
  · unfold tombstoneKey
    exact .inr (.inl (hmirror ..))
  · unfold incarnationKey
    exact .inr (.inr (hmirror ..))

/-- A sweep of one path takes away at most the event and its counter. -/
theorem lookup_erase_swept {pfx : Str} (hp : pfx ∈ Keyspace.sweptPrefixes stream.logPrefix) :
    (∀ q, q ≠ seq → AList.lookup (K.root ++ stream.logKey q) (s.erase (K.root ++ (pfx ++ seqComponent seq))) =
        s.lookup (K.root ++ stream.logKey q)) ∧
      (∀ q, AList.lookup (K.root ++ (stream.certPrefix ++ seqComponent q)) (s.erase (K.root ++ (pfx ++ seqComponent seq))) =
        s.lookup (K.root ++ (stream.certPrefix ++ seqComponent q))) ∧
      ∀ q, s.lookup (K.root ++ incarnationKey (stream.logKey q)) = none →
        AList.lookup (K.root ++ incarnationKey (stream.logKey q)) (s.erase (K.root ++ (pfx ++ seqComponent seq))) = none := by
  refine ⟨fun q hq => lookup_erase_key fun he => ?_, fun q => lookup_erase_key fun he => ?_, fun q hn => ?_⟩
  · rcases @swept_cases _ seq _ hp with h | h | h
    · exact hq (StreamId.logKey_injective (he.trans h))
    · have := congrArg List.length (he.trans h)
      rw [Keyspace.tombstoneKey_length, StreamId.logKey_length, StreamId.logKey_length] at this
      omega
    · exact StreamId.logKey_ne_incarnationKey (he.trans h)
  · rcases @swept_cases _ seq _ hp with h | h | h
    · exact StreamId.logKey_ne_cert (h.symm.trans he.symm)
    · have := congrArg List.length (he.trans h)
      rw [Keyspace.tombstoneKey_length, StreamId.logKey_length, List.length_append, StreamId.certPrefix_length, seqComponent_length] at this
      omega
    · exact StreamId.incarnationKey_ne_cert (h.symm.trans he.symm)
  · by_cases he : K.root ++ incarnationKey (stream.logKey q) = K.root ++ (pfx ++ seqComponent seq)
    · rw [he, AList.lookup_erase]
    · rw [AList.lookup_erase_ne he, hn]

end

end YeetzS3.Streams
