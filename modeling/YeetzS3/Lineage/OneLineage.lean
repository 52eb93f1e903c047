import YeetzS3.Paths
import YeetzS3.Publish
import YeetzS3.Lineage.Codec
import YeetzS3.Lineage.Ops

/-!
# One lineage

The three objects of one lineage and the lifetimes of its heads. Records and checkpoints are none of the three:
their keys end in a digest.
-/

namespace YeetzS3.Lineage

open Conc

namespace KernelLineage

variable (l : KernelLineage)

/-! ### The keys on the wire -/

theorem digest_chars {d : RecordDigest} {c : Char} (hc : c ∈ d.hex) :
    (48 ≤ c.toNat ∧ c.toNat ≤ 57) ∨ (97 ≤ c.toNat ∧ c.toNat ≤ 102) := by
  have hv := d.valid
  simp only [isDigest, Bool.and_eq_true, List.all_eq_true, Bool.or_eq_true, decide_eq_true_eq] at hv
  exact hv.2 c hc

/-- A digest is one segment, and itself on the wire. -/
theorem wireSegments_digest (d : RecordDigest) : wireSegments d.hex = [d.hex] := by
  have hplain : ∀ n < 103, (48 ≤ n ∧ n ≤ 57) ∨ (97 ≤ n ∧ n ≤ 102) → needsEscape (Char.ofNat n) = false := by decide +kernel
  have hne : d.hex ≠ [] := fun h => by
    have hv := d.valid
    rw [h] at hv
    cases hv
  have hdot : '.' ∉ d.hex := fun h => absurd (digest_chars h) (by decide)
  have hslash : '/' ∉ d.hex := fun h => absurd (digest_chars h) (by decide)
  have he : ∀ c ∈ d.hex, (if needsEscape c then (String.utf8EncodeChar c).flatMap percentByte else [c]) = [c] := by
    intro c hc
    have hr := digest_chars hc
    have hp := hplain c.toNat (by omega) hr
    rw [Char.ofNat_toNat] at hp
    rw [if_neg (by simp [hp])]
  have h₁ : d.hex ≠ ".".toList := fun h => hdot (h ▸ by decide)
  have h₂ : d.hex ≠ "..".toList := fun h => hdot (h ▸ by decide)
  rw [wireSegments_single hne hslash, encodeSegment, if_neg h₁, if_neg h₂, List.flatMap_congr he, List.flatMap_singleton']

theorem wireSegments_headKey : wireSegments l.headKey = wireSegments l.value ++ ["head".toList] := by
  have hw : wireSegments "head".toList = ["head".toList] := by decide
  rw [headKey, wireSegments_append, hw]

theorem wireSegments_incarnationKey : wireSegments l.incarnationKey = wireSegments l.value ++ ["incarnation".toList] := by
  have hw : wireSegments "incarnation".toList = ["incarnation".toList] := by decide
  rw [incarnationKey, wireSegments_append, hw]

theorem wireSegments_tombstoneKey : wireSegments l.tombstoneKey = wireSegments l.value ++ ["tombstone".toList] := by
  have hw : wireSegments "tombstone".toList = ["tombstone".toList] := by decide
  rw [tombstoneKey, wireSegments_append, hw]

theorem wireSegments_objectKey (d : RecordDigest) :
    wireSegments (l.objectKey d) = wireSegments l.value ++ ["objects".toList, d.hex] := by
  have hw : wireSegments "objects".toList = ["objects".toList] := by decide
  rw [objectKey, wireSegments_append, wireSegments_append, hw, wireSegments_digest, List.singleton_append]

theorem wireSegments_checkpointKey (d : RecordDigest) :
    wireSegments (l.checkpointKey d) = wireSegments l.value ++ ["checkpoints".toList, d.hex] := by
  have hw : wireSegments "checkpoints".toList = ["checkpoints".toList] := by decide
  rw [checkpointKey, wireSegments_append, wireSegments_append, hw, wireSegments_digest, List.singleton_append]

/-- The head's key as it is ends in its own name. -/
theorem headKey_ne_pathFrom {key s : Str} {ss : List Str} (hk : wireSegments key = ss ++ [s]) (hs : s ≠ "head".toList) :
    l.headKey ≠ pathFrom key := by
  intro h
  have hsplit := congrArg (fun p => (List.splitOn '/' p).getLast?) h
  have hhead : List.splitOn '/' "head".toList = ["head".toList] := by decide
  simp only [headKey, List.splitOn_append_cons_self, hhead, @splitOn_pathFrom key (by rw [hk]; simp), hk,
    List.getLast?_concat, Option.some.injEq] at hsplit
  exact hs hsplit.symm

/-- The objects of a lineage. -/
def slots : Slots where
  control := l.headKey
  counter := l.incarnationKey
  tombstone := l.tombstoneKey
  control_ne_counter := by
    rw [Ne, pathFrom_inj, wireSegments_headKey, wireSegments_incarnationKey]
    exact fun h => absurd (List.append_cancel_left h) (by decide)
  control_ne_tombstone := by
    rw [Ne, pathFrom_inj, wireSegments_headKey, wireSegments_tombstoneKey]
    exact fun h => absurd (List.append_cancel_left h) (by decide)
  counter_ne_tombstone := by
    rw [Ne, pathFrom_inj, wireSegments_incarnationKey, wireSegments_tombstoneKey]
    exact fun h => absurd (List.append_cancel_left h) (by decide)
  verbatim_ne_counter := l.headKey_ne_pathFrom l.wireSegments_incarnationKey (by decide)
  verbatim_ne_tombstone := l.headKey_ne_pathFrom l.wireSegments_tombstoneKey (by decide)

/-- A key with two more segments than the lineage's name is none of the three objects. -/
theorem spare_of_two {key a b : Str} (hk : wireSegments key = wireSegments l.value ++ [a, b]) :
    l.slots.Spare (pathFrom key) := by
  have hone : ∀ {key' c : Str}, wireSegments key' = wireSegments l.value ++ [c] → pathFrom key ≠ pathFrom key' := by
    intro key' c hc h
    rw [pathFrom_inj, hk, hc] at h
    cases List.append_cancel_left h
  exact ⟨hone l.wireSegments_headKey, hone l.wireSegments_incarnationKey, hone l.wireSegments_tombstoneKey⟩

theorem spare_objectKey (d : RecordDigest) : l.slots.Spare (pathFrom (l.objectKey d)) :=
  l.spare_of_two (l.wireSegments_objectKey d)

theorem spare_checkpointKey (d : RecordDigest) : l.slots.Spare (pathFrom (l.checkpointKey d)) :=
  l.spare_of_two (l.wireSegments_checkpointKey d)

end KernelLineage

/-! ### Histories -/

variable (X : Crates) (l : KernelLineage)

/-- The records `rs` lead from position `p` to position `q`, each naming the one before it. -/
inductive Follows : RecordPosition → List CanonicalRecord → RecordPosition → Prop where
  | nil (p : RecordPosition) : Follows p [] p
  | cons {p q : RecordPosition} {r : CanonicalRecord} {rs : List CanonicalRecord}
      (hl : l.sameIdentity r.lineage = true) (hn : r.sequence.toNat = p.generation.toNat + 1) (hp : r.prior = some p)
      (hrs : Follows (r.position X) rs q) : Follows p (r :: rs) q

/-- Head `h'` goes on from where head `h` ends, in the same lifetime. -/
structure CanonicalHead.Extends (h h' : CanonicalHead) : Prop where
  lineage : h'.lineage = l
  incarnation : h'.incarnation = h.incarnation
  records : ∃ rs, Follows X l h.position rs h'.position ∧ h'.prior = rs.getLast?.bind (·.prior)

variable {X l}

theorem sameIdentity_of_ensure {r : CanonicalRecord} {u : Unit} (h : ensureRecordLineage l r = .ok u) :
    l.sameIdentity r.lineage = true := by
  unfold ensureRecordLineage at h
  split at h
  · assumption
  · cases h

/-- The records of a batch that was accepted lead from the position it began behind to the one it returned. -/
theorem follows_of_batch {rs : List CanonicalRecord} {p q : RecordPosition} {n : UInt64}
    (hn : n.toNat = p.generation.toNat + 1) (h : validateRecordBatch X l rs n (some p) = .ok q) : Follows X l p rs q := by
  induction rs generalizing p n with
  | nil =>
    cases h
    exact .nil _
  | cons r rs ih =>
    rw [validateRecordBatch] at h
    split at h
    · cases h
    next hl =>
    split at h
    · cases h
    next hr =>
    simp only [ne_eq, not_or, not_not] at hr
    split at h
    · cases h
    next next hs =>
    rw [← hr.1] at h hs
    have hrest := ih (p := r.position X) (toNat_of_checkedSucc hs) h
    exact .cons (sameIdentity_of_ensure hl) (by rw [hr.1, hn]) hr.2 hrest

variable (X l)

/-! ### Lifetimes -/

/-- The incarnation head bytes are stamped with. -/
def stampOf (bytes : Bytes) : UInt64 :=
  match CanonicalHead.readWire X bytes with
  | some (_, incarnation, _) => incarnation
  | none => 0

variable {X l}

@[simp] theorem stampOf_canonicalBytes (h : CanonicalHead) : stampOf X (h.canonicalBytes X) = h.incarnation := by
  rw [stampOf, CanonicalHead.readWire_canonicalBytes]

theorem stampOf_fromBytes {bytes : Bytes} {h : CanonicalHead} (hr : CanonicalHead.fromBytes X l bytes = .ok h) :
    stampOf X bytes = h.incarnation := by
  obtain ⟨-, -, rfl | ⟨h0, rfl⟩⟩ := CanonicalHead.bytes_of_fromBytes hr
  · exact stampOf_canonicalBytes h
  · rw [stampOf, CanonicalHead.readWire_legacyV1Bytes, h0]

variable (X l)

/-- The lifetimes of heads: a head is stamped with its incarnation, and follows another whose records it
goes on from. -/
def lifetimes : Lifetimes Bytes where
  stamp b := (stampOf X b).toNat
  next b d := ∃ h h', CanonicalHead.fromBytes X l b = .ok h ∧ d = h'.canonicalBytes X ∧ h.Extends X l h'
  stamp_next := by
    rintro b d ⟨h, h', hb, rfl, he⟩
    rw [stampOf_canonicalBytes, stampOf_fromBytes hb, he.incarnation]

@[simp] theorem lifetimes_stamp (b : Bytes) : (lifetimes X l).stamp b = (stampOf X b).toNat := rfl

end YeetzS3.Lineage
