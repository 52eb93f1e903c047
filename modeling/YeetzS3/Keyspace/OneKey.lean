import YeetzS3.Publish
import YeetzS3.Keyspace.Streamed

/-!
# One key

The three objects of one key and the lifetimes of its controls. Chunk objects lie outside the root of the
keyspace, so they are none of the three.
-/

namespace YeetzS3.Keyspace

open Conc

/-- A key the keyspace accepts. -/
structure Key (K : AtomicKeyspace) where
  name : Str
  path : K.objectKey name = .ok (K.root ++ name)

/-- The lifetimes of controls: a control is stamped with its incarnation, and a control follows another of
the same incarnation at the version before its own. -/
def lifetimes : Lifetimes Bytes where
  stamp b := (stampOf b).incarnation.toNat
  next b d := (stampOf d).incarnation = (stampOf b).incarnation ∧
    (stampOf d).version.toNat = (stampOf b).version.toNat + 1
  stamp_next h := by rw [h.1]

/-- A successor's bytes may follow the control they were bound to. -/
theorem next_of_stamp {b d : Bytes} {v : UInt64} (hd : stampOf d = ⟨(stampOf b).incarnation, v⟩)
    (hv : v.toNat = (stampOf b).version.toNat + 1) : lifetimes.next b d := by
  simp [lifetimes, hd, hv]

namespace Key

variable {K : AtomicKeyspace} (key : Key K)

theorem valid : ValidPath key.name := (AtomicKeyspace.objectKey_ok key.path).2

theorem pathFrom_control : pathFrom (K.root ++ key.name) = K.root ++ key.name :=
  pathFrom_of_valid (AtomicKeyspace.validPath_root_append key.valid)

theorem pathFrom_counter : pathFrom (K.root ++ incarnationKey key.name) = K.root ++ incarnationKey key.name :=
  pathFrom_of_valid (AtomicKeyspace.validPath_root_append (validPath_append.2 ⟨by decide, key.valid⟩))

theorem pathFrom_tombstone : pathFrom (K.root ++ tombstoneKey key.name) = K.root ++ tombstoneKey key.name :=
  pathFrom_of_valid (AtomicKeyspace.validPath_root_append (validPath_append.2 ⟨by decide, key.valid⟩))

theorem name_ne_incarnationKey : key.name ≠ incarnationKey key.name := fun h => by
  have := congrArg List.length h
  rw [incarnationKey_length] at this
  omega

theorem name_ne_tombstoneKey : key.name ≠ tombstoneKey key.name := fun h => by
  have := congrArg List.length h
  rw [tombstoneKey_length] at this
  omega

theorem incarnationKey_ne_tombstoneKey : incarnationKey key.name ≠ tombstoneKey key.name := fun h => by
  have := congrArg List.length h
  rw [incarnationKey_length, tombstoneKey_length] at this
  omega

/-- The objects of a key. -/
def slots : Slots where
  control := K.root ++ key.name
  counter := K.root ++ incarnationKey key.name
  tombstone := K.root ++ tombstoneKey key.name
  control_ne_counter := by
    rw [key.pathFrom_control, key.pathFrom_counter]
    exact fun h => key.name_ne_incarnationKey (List.append_cancel_left h)
  control_ne_tombstone := by
    rw [key.pathFrom_control, key.pathFrom_tombstone]
    exact fun h => key.name_ne_tombstoneKey (List.append_cancel_left h)
  counter_ne_tombstone := by
    rw [key.pathFrom_counter, key.pathFrom_tombstone]
    exact fun h => key.incarnationKey_ne_tombstoneKey (List.append_cancel_left h)
  verbatim_ne_counter := by
    rw [key.pathFrom_counter]
    exact fun h => key.name_ne_incarnationKey (List.append_cancel_left h)
  verbatim_ne_tombstone := by
    rw [key.pathFrom_tombstone]
    exact fun h => key.name_ne_tombstoneKey (List.append_cancel_left h)

/-- The objects of a key are named on the wire as they are. -/
theorem calm_iff {B : Backend} : key.slots.Calm B ↔ ¬ B.faults :=
  ⟨And.left, fun h => ⟨h, key.pathFrom_control.symm⟩⟩

/-- Chunk objects are none of a key's objects. -/
theorem spare_chunk (ns name : Str) (incarnation version : UInt64) (digestHex : Str) :
    key.slots.Spare (pathFrom (chunkObjectKey ns name incarnation version digestHex)) :=
  ⟨fun h => pathFrom_chunk_ne _ _ _ _ _ _ _ (h.trans key.pathFrom_control),
    fun h => pathFrom_chunk_ne _ _ _ _ _ _ _ (h.trans key.pathFrom_counter),
    fun h => pathFrom_chunk_ne _ _ _ _ _ _ _ (h.trans key.pathFrom_tombstone)⟩

end Key

end YeetzS3.Keyspace
