import YeetzS3.Keyspace.Calls

/-!
# What a keyspace lists

`keysAfter` are the keys under the root of a keyspace behind an exclusive offset, in order. An honest list returns a
prefix of them (`runs_listAfter`), any list keys that are there.
-/

namespace YeetzS3.Keyspace

open Conc

namespace AtomicKeyspace

variable (K : AtomicKeyspace) (s : Store)

/-- The keys under the root. -/
def keys : List Str := s.keys.filterMap (stripPrefix K.root)

/-- The keys under the root behind `after`, in order. -/
def keysAfter (after : Option Str) : List Str :=
  ((K.keys s).filter fun k => after.all (· < k)).insertionSort (· ≤ ·)

/-- The directory of the keyspace's objects. -/
def dir : Str := "keyspace".toList ++ '/' :: K.ns

theorem root_eq : K.root = K.dir ++ ['/'] := by
  unfold root dir
  generalize "keyspace".toList = r
  simp

theorem validPath_dir : ValidPath K.dir := validPath_append.2 ⟨by decide, validPath_of_validate K.valid⟩

variable {K s} {key : Str} {after : Option Str}

theorem mem_keys : key ∈ K.keys s ↔ K.root ++ key ∈ s.keys := by
  simp only [keys, List.mem_filterMap, stripPrefix_eq_some]
  constructor
  · rintro ⟨_, h, rfl⟩
    exact h
  · exact fun h => ⟨_, h, rfl⟩

theorem mem_keys_iff_lookup : key ∈ K.keys s ↔ s.lookup (K.root ++ key) ≠ none := by
  rw [mem_keys, ← AList.mem_keys, ← AList.lookup_isSome, Option.isSome_iff_ne_none]

theorem nodup_keys : (K.keys s).Nodup := by
  refine s.keys_nodup.filterMap fun a a' b h h' => ?_
  rw [stripPrefix_eq_some.1 h, stripPrefix_eq_some.1 h']

theorem mem_keysAfter : key ∈ K.keysAfter s after ↔ key ∈ K.keys s ∧ ∀ a, after = some a → a < key := by
  simp only [keysAfter, List.mem_insertionSort, List.mem_filter, Option.all_eq_true, decide_eq_true_eq]

theorem sorted_keysAfter : (K.keysAfter s after).Pairwise (· < ·) := by
  have hle := List.pairwise_insertionSort (r := (· ≤ ·)) ((K.keys s).filter fun k => after.all (· < k))
  have hne := (List.Perm.nodup_iff (List.perm_insertionSort (· ≤ ·) _)).2 (nodup_keys (K := K) (s := s) |>.filter fun k => after.all (· < k))
  exact (hle.and hne).imp fun h => lt_of_le_of_ne h.1 h.2

end AtomicKeyspace

theorem append_lt_append {r a b : Str} : r ++ a < r ++ b ↔ a < b := by
  induction r with
  | nil => rfl
  | cons c r ih => simp [ih]

theorem append_le_append {r a b : Str} : r ++ a ≤ r ++ b ↔ a ≤ b := by
  rw [← not_lt, append_lt_append, not_lt]

/-- The directory is listed with one separator. -/
theorem pathFrom_dir {dir : Str} (hd : ValidPath dir) : pathFrom (dir ++ ['/']) = dir := by
  have h : wireSegments (dir ++ ['/']) = wireSegments dir := by
    rw [wireSegments_append, show wireSegments [] = [] by decide, List.append_nil]
  rw [pathFrom_inj.2 h, pathFrom_of_valid hd]

section
variable {K : AtomicKeyspace} {B : Backend} {s t : Store} {after : Option Str} {n fuel : ℕ} {keys : List Str}

theorem listing_eq (ha : ∀ a, after = some a → ValidPath a) :
    s.listing K.root (after.map (K.root ++ ·)) = (K.keysAfter s after).map (K.root ++ ·) := by
  have hroot : pathFrom K.root ++ ['/'] = K.root := by
    rw [K.root_eq, pathFrom_dir K.validPath_dir]
  have hafter : ∀ k, (after.map (K.root ++ ·)).all (pathFrom · < K.root ++ k) = after.all (· < k) := by
    intro k
    cases after with
    | none => rfl
    | some a =>
      simp only [Option.map_some, Option.all_some, pathFrom_of_valid (AtomicKeyspace.validPath_root_append (ha a rfl)),
        append_lt_append]
  have hsorted : ((K.keysAfter s after).map (K.root ++ ·)).Pairwise (· ≤ ·) :=
    (AtomicKeyspace.sorted_keysAfter.imp fun h => append_le_append.2 h.le).map _ fun _ _ h => h
  have hnodup : ((K.keysAfter s after).map (K.root ++ ·)).Nodup :=
    (List.nodup_map_iff fun _ _ h => List.append_cancel_left h).2 (AtomicKeyspace.sorted_keysAfter.imp ne_of_lt)
  refine List.Perm.eq_of_pairwise' (List.pairwise_insertionSort ..) hsorted ((List.perm_insertionSort _ _).trans
    ((List.perm_ext_iff_of_nodup (s.keys_nodup.filter _) hnodup).2 fun k => ?_))
  simp only [List.mem_filter, List.mem_map, Bool.and_eq_true, hroot, List.isPrefixOf_iff_prefix,
    AtomicKeyspace.mem_keysAfter]
  constructor
  · rintro ⟨hk, ⟨q, rfl⟩, hq⟩
    rw [hafter, Option.all_eq_true] at hq
    exact ⟨q, ⟨AtomicKeyspace.mem_keys.2 hk, fun a h => by simpa using hq a h⟩, rfl⟩
  · rintro ⟨q, ⟨hk, hq⟩, rfl⟩
    refine ⟨AtomicKeyspace.mem_keys.1 hk, List.prefix_append _ _, ?_⟩
    rw [hafter, Option.all_eq_true]
    exact fun a h => by simpa using hq a h

theorem filterMap_stripPrefix (keys : List Str) :
    (keys.map (K.root ++ ·)).filterMap (stripPrefix K.root) = keys := by
  rw [List.filterMap_map]
  exact (List.filterMap_congr fun k _ => stripPrefix_eq_some.2 rfl).trans (List.filterMap_some ..)

theorem validPath_of_check {u : Unit} (h : after.elim (.ok ()) (validateIdentifier "start_after") = .ok u) :
    ∀ a, after = some a → ValidPath a := by
  rintro a rfl
  exact validPath_of_validate h

/-- What a list of the keyspace returns is some of what is there, and what comes first when lists are honest. -/
theorem runs_listAfter (h : (listAfter K after n).run.Runs B.exec s (.ok keys) t) :
    t = s ∧ keys.Sublist (K.keysAfter s after) ∧ (¬ B.omits → keys = (K.keysAfter s after).take n) := by
  unfold listAfter at h
  split at h
  · next hn =>
    obtain ⟨he, rfl⟩ := Prog.runs_ret.1 h
    cases he
    exact ⟨rfl, List.nil_sublist _, fun _ => by rw [hn, List.take_zero]⟩
  obtain ⟨u, s₁, hc, hl⟩ := Prog.runs_bindE.1 h
  cases hv : after.elim (.ok ()) (validateIdentifier "start_after") with
  | error e =>
    rw [hv] at hc
    cases (Prog.runs_ret.1 hc).1
  | ok u =>
    rw [hv] at hc
    obtain ⟨-, rfl⟩ := Prog.runs_ret.1 hc
    obtain ⟨x, s₂, ⟨rfl, hx⟩, hret⟩ := Prog.runs_call.1 hl
    rw [listing_eq (validPath_of_check hv), ← List.map_take] at hx
    rcases x with e | found
    · cases (Prog.runs_ret.1 hret).1
    obtain ⟨he, rfl⟩ := Prog.runs_ret.1 hret
    cases he
    refine ⟨rfl, ?_, fun ho => ?_⟩
    · rcases hx with hx | ⟨-, ks, hs, -, hx⟩ | ⟨-, hx⟩
      · cases hx
        rw [filterMap_stripPrefix]
        exact List.take_sublist ..
      · cases hx
        rw [← filterMap_stripPrefix (K := K) (K.keysAfter _ after)]
        exact hs.filterMap _
      · cases hx
    · rcases hx with hx | ⟨ho', -⟩ | ⟨-, hx⟩
      · cases hx
        rw [filterMap_stripPrefix]
      · exact absurd ho' ho
      · cases hx

end

end YeetzS3.Keyspace
