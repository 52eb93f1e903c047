import YeetzS3.Lineage.Format

/-!
# The formats of a lineage are canonical

Every decoder accepts exactly the encodings: what the constructors accept reads back, and what a decoder
accepts is the encoding of what it returns. Heads have two formats, told apart by their shape.
-/

namespace YeetzS3.Lineage

variable {X : Crates} {l : KernelLineage}

/-! ### Positions -/

@[simp] theorem intoPosition_wire (p : RecordPosition) (err : KernelError) : p.wire.intoPosition err = .ok p := by
  simp [RecordPosition.wire, PositionWire.intoPosition]

@[simp] theorem intoPrior_wire (p : Option RecordPosition) (err : KernelError) :
    intoPrior err (p.map RecordPosition.wire) = .ok p := by
  cases p with
  | none => rfl
  | some p => simp [intoPrior, Except.map]

/-! ### Records -/

namespace CanonicalRecord

theorem ofWire_wire (r : CanonicalRecord) (expected : RecordDigest) :
    ofWire X r.lineage expected (r.canonicalBytes X) r.wire = .ok r := by
  have hnew : new r.lineage r.sequence r.prior r.transitionType r.transitionSchema r.payload r.operationId r.actorId
      r.causeId = .ok r := dif_pos r.valid
  simp [ofWire, wire, hnew]

/-- Every record reads back. -/
theorem fromBytes_canonicalBytes (r : CanonicalRecord) :
    fromBytes X r.lineage (r.digest X) (r.canonicalBytes X) = .ok r := by
  have hread : X.record.fromSlice (r.canonicalBytes X) = some r.wire := X.record.fromSlice_toVec r.wire
  have hdigest : RecordDigest.of X (r.canonicalBytes X) = r.digest X := rfl
  rw [fromBytes, if_neg (not_not.2 hdigest), hread]
  exact ofWire_wire r _

theorem new_lineage {sequence : UInt64} {prior : Option RecordPosition} {ty schema : Str} {payload : Bytes}
    {operationId actorId causeId : Str} {r : CanonicalRecord}
    (h : new l sequence prior ty schema payload operationId actorId causeId = .ok r) : r.lineage = l := by
  unfold new at h
  split at h <;> cases h
  rfl

/-- What reads as a record is its encoding, of the lineage and with the digest that were asked for. -/
theorem canonicalBytes_of_fromBytes {expected : RecordDigest} {bytes : Bytes} {r : CanonicalRecord}
    (h : fromBytes X l expected bytes = .ok r) : bytes = r.canonicalBytes X ∧ r.lineage = l ∧ r.digest X = expected := by
  unfold fromBytes at h
  split at h
  · cases h
  next hdigest =>
  rw [not_not] at hdigest
  split at h
  · cases h
  next wire hread =>
  unfold ofWire at h
  dsimp only at h
  split at h
  · cases h
  split at h
  · cases h
  split at h
  · cases h
  split at h
  · cases h
  split at h
  · cases h
  split at h
  · cases h
  next record hnew =>
  split at h
  · cases h
  next hbytes =>
  cases h
  rw [not_not] at hbytes
  exact ⟨hbytes.symm, new_lineage hnew, by rw [digest, hbytes, hdigest]⟩

end CanonicalRecord

/-! ### Checkpoints -/

namespace CanonicalCheckpoint

/-- Every checkpoint reads back. -/
theorem fromBytes_canonicalBytes (c : CanonicalCheckpoint) :
    fromBytes X c.lineage (c.digest X) (c.canonicalBytes X) = .ok c := by
  have hread : X.checkpoint.fromSlice (c.canonicalBytes X) = some c.wire := X.checkpoint.fromSlice_toVec c.wire
  have hnew : new c.lineage c.transitionSchema c.sourceGeneration c.sourceHeadDigest c.lastIncludedRecordDigest
      c.stateBytes = .ok c := dif_pos c.valid
  have hdigest : RecordDigest.of X (c.canonicalBytes X) = c.digest X := rfl
  rw [fromBytes, if_neg (not_not.2 hdigest), hread]
  simp [ofWire, wire, hnew]

/-- What reads as a checkpoint is its encoding, of the lineage and with the digest that were asked for. -/
theorem canonicalBytes_of_fromBytes {expected : RecordDigest} {bytes : Bytes} {c : CanonicalCheckpoint}
    (h : fromBytes X l expected bytes = .ok c) : bytes = c.canonicalBytes X ∧ c.lineage = l ∧ c.digest X = expected := by
  unfold fromBytes at h
  split at h
  · cases h
  next hdigest =>
  rw [not_not] at hdigest
  split at h
  · cases h
  next wire hread =>
  unfold ofWire at h
  dsimp only at h
  split at h
  · cases h
  split at h
  · cases h
  split at h
  · cases h
  split at h
  · cases h
  split at h
  · cases h
  split at h
  · cases h
  next checkpoint hnew =>
  split at h
  · cases h
  next hbytes =>
  cases h
  rw [not_not] at hbytes
  have hl : c.lineage = l := by
    unfold new at hnew
    split at hnew <;> cases hnew
    rfl
  exact ⟨hbytes.symm, hl, by rw [digest, hbytes, hdigest]⟩

end CanonicalCheckpoint

/-! ### Heads -/

namespace CanonicalHead

/-- A head whose prior position is the one before its generation. -/
def WellFormed (h : CanonicalHead) : Prop := priorFits h.generation h.prior = true

instance (h : CanonicalHead) : Decidable h.WellFormed := inferInstanceAs (Decidable (_ = true))

theorem readWire_canonicalBytes (h : CanonicalHead) : readWire X (h.canonicalBytes X) =
    some (h.generation, h.incarnation, h.recordDigest.hex, h.prior.map RecordPosition.wire, false) := by
  have hread : X.head.fromSlice (h.canonicalBytes X) = some h.wire := X.head.fromSlice_toVec h.wire
  rw [readWire, hread]
  exact if_pos rfl

theorem readWire_legacyV1Bytes (h : CanonicalHead) : readWire X (h.legacyV1Bytes X) =
    some (h.generation, 0, h.recordDigest.hex, h.prior.map RecordPosition.wire, true) := by
  have hread : X.headV1.fromSlice (h.legacyV1Bytes X) = some h.wireV1 := X.headV1.fromSlice_toVec h.wireV1
  have hnone : X.head.fromSlice (h.legacyV1Bytes X) = none := X.head_of_headV1 h.wireV1
  rw [readWire, hread, hnone]
  exact if_pos rfl

/-- Every well-formed head reads back. -/
theorem fromBytes_canonicalBytes {h : CanonicalHead} (hw : h.WellFormed) :
    fromBytes X h.lineage (h.canonicalBytes X) = .ok h := by
  unfold WellFormed at hw
  simp [fromBytes, readWire_canonicalBytes, hw, bytesIn]

/-- Every well-formed head of the first lifetime reads back from the format heads had before. -/
theorem fromBytes_legacyV1Bytes {h : CanonicalHead} (hw : h.WellFormed) (h0 : h.incarnation = 0) :
    fromBytes X h.lineage (h.legacyV1Bytes X) = .ok h := by
  unfold WellFormed at hw
  obtain ⟨lineage, generation, incarnation, recordDigest, prior⟩ := h
  cases h0
  simp [fromBytes, readWire_legacyV1Bytes, hw, bytesIn]

theorem readWire_legacy {bytes : Bytes} {g i : UInt64} {d : Str} {p : Option PositionWire}
    (h : readWire X bytes = some (g, i, d, p, true)) : i = 0 := by
  unfold readWire at h
  split at h
  · split at h
    · cases h
    · split at h
      · split at h <;> cases h
        rfl
      · cases h
  · split at h <;> cases h
    rfl
  · cases h

/-- What reads as a head is its encoding in one of the two formats. -/
theorem bytes_of_fromBytes {bytes : Bytes} {h : CanonicalHead} (hr : fromBytes X l bytes = .ok h) :
    h.lineage = l ∧ h.WellFormed ∧ (bytes = h.canonicalBytes X ∨ h.incarnation = 0 ∧ bytes = h.legacyV1Bytes X) := by
  unfold fromBytes at hr
  dsimp only at hr
  split at hr
  · cases hr
  next g i d p legacy hwire =>
  split at hr
  · cases hr
  split at hr
  · cases hr
  next prior hprior =>
  by_cases hfits : priorFits g prior = false
  · rw [if_pos hfits] at hr
    cases hr
  rw [if_neg hfits] at hr
  split at hr
  · cases hr
  next hbytes =>
  cases hr
  rw [not_not] at hbytes
  refine ⟨rfl, by simpa [WellFormed] using hfits, ?_⟩
  cases legacy with
  | false => exact .inl hbytes.symm
  | true => exact .inr ⟨readWire_legacy hwire, hbytes.symm⟩

/-- Bytes that are no head are malformed, not missing. -/
theorem fromBytes_error {bytes : Bytes} {e : KernelError} (h : fromBytes X l bytes = .error e) :
    ∃ reference, e = .stateRecordMalformed reference := by
  have hprior : ∀ {err p}, intoPrior err p = .error e → e = err := by
    rintro err (_ | w) hp
    · cases hp
    · rw [intoPrior, PositionWire.intoPosition] at hp
      split at hp <;> cases hp
      rfl
  unfold fromBytes at h
  dsimp only at h
  split at h
  · cases h
    exact ⟨_, rfl⟩
  split at h
  · cases h
    exact ⟨_, rfl⟩
  split at h
  · next hp =>
    cases h
    exact ⟨_, hprior hp⟩
  next g i _ p legacy _ _ _ _ _ prior _ =>
  by_cases hfits : priorFits g prior = false
  · rw [if_pos hfits] at h
    cases h
    exact ⟨_, rfl⟩
  rw [if_neg hfits] at h
  split at h <;> cases h
  exact ⟨_, rfl⟩

/-- No bytes are heads in both formats. -/
theorem canonicalBytes_ne_legacyV1Bytes (h h' : CanonicalHead) : h.canonicalBytes X ≠ h'.legacyV1Bytes X := by
  intro heq
  have hread : X.headV1.fromSlice (h'.legacyV1Bytes X) = some h'.wireV1 := X.headV1.fromSlice_toVec h'.wireV1
  have hnone : X.headV1.fromSlice (h.canonicalBytes X) = none := X.headV1_of_head h.wire
  rw [← heq, hnone] at hread
  cases hread

end CanonicalHead

end YeetzS3.Lineage
