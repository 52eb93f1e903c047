import YeetzS3.Text

/-!
# Durations and system times

`std::time` on a 64-bit Unix: a duration has unsigned 64-bit seconds, a system time signed 64-bit seconds, and both have
nanoseconds. Both are counted in nanoseconds here, a system time from the epoch.
-/

namespace YeetzS3.Sdk

/-- Nanoseconds in a second. -/
def nanosPerSec : ℕ := 10 ^ 9

/-- `Duration`. -/
@[ext] structure Duration where
  nanos : ℕ
  bounded : nanos < 2 ^ 64 * nanosPerSec
deriving DecidableEq

/-- `SystemTime`. -/
@[ext] structure SystemTime where
  nanos : ℤ
  lower : -(2 ^ 63 * nanosPerSec) ≤ nanos
  upper : nanos < 2 ^ 63 * nanosPerSec
deriving DecidableEq

/-- What the code can panic with. -/
inductive Panic where
  /-- `overflow when adding duration to instant` -/
  | instantOverflow
deriving DecidableEq

namespace Duration

instance : LinearOrder Duration := LinearOrder.lift' nanos fun _ _ => Duration.ext

/-- `Duration::from_secs`. -/
def fromSecs (secs : UInt64) : Duration :=
  ⟨secs.toNat * nanosPerSec, Nat.mul_lt_mul_of_pos_right secs.toNat_lt (by decide)⟩

/-- `Duration::saturating_mul`. -/
def saturatingMul (d : Duration) (n : UInt32) : Duration :=
  ⟨min (d.nanos * n.toNat) (2 ^ 64 * nanosPerSec - 1), lt_of_le_of_lt (Nat.min_le_right _ _) (by decide)⟩

end Duration

namespace SystemTime

/-- `UNIX_EPOCH`. -/
def unixEpoch : SystemTime := ⟨0, by decide, by decide⟩

/-- `SystemTime + Duration`: a panic where the seconds leave the signed 64-bit range. -/
def add (t : SystemTime) (d : Duration) : Except Panic SystemTime :=
  if h : t.nanos + d.nanos < 2 ^ 63 * nanosPerSec then
    .ok ⟨t.nanos + d.nanos, t.lower.trans (Int.le_add_of_nonneg_right (Int.natCast_nonneg _)), h⟩
  else .error .instantOverflow

/-- `duration_since`; `none` where the other time is later. -/
def durationSince (t earlier : SystemTime) : Option Duration :=
  if earlier.nanos ≤ t.nanos then
    some ⟨(t.nanos - earlier.nanos).toNat, by
      have h₁ := t.upper
      have h₂ := earlier.lower
      have h₃ : (0 : ℤ) < nanosPerSec := by decide
      omega⟩
  else none

/-- Seconds after the epoch overflow from the sign bit on. -/
theorem add_fromSecs_panics {secs : UInt64} {p : Panic} :
    unixEpoch.add (.fromSecs secs) = .error p ↔ 2 ^ 63 ≤ secs.toNat := by
  have hsum : unixEpoch.nanos + ((Duration.fromSecs secs).nanos : ℤ) = secs.toNat * nanosPerSec :=
    (Int.zero_add _).trans (Int.natCast_mul _ _)
  have hlt : unixEpoch.nanos + ((Duration.fromSecs secs).nanos : ℤ) < 2 ^ 63 * nanosPerSec ↔ secs.toNat < 2 ^ 63 := by
    rw [hsum, Int.mul_lt_mul_right (by decide)]
    exact_mod_cast Iff.rfl
  unfold add
  split
  · next h =>
    simp only [reduceCtorEq, false_iff, Nat.not_le]
    exact hlt.1 h
  · next h =>
    rw [hlt, Nat.not_lt] at h
    cases p
    exact iff_of_true rfl h

end SystemTime

end YeetzS3.Sdk
