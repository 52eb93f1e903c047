import YeetzS3.Lineage.Calls
import YeetzS3.Lineage.Serde
import YeetzS3.Keyspace.Isolation
import YeetzS3.Conc.Duty

/-!
# One bucket

Any number of lineages and keyspaces share a bucket. Their objects lie apart, except that a lineage deletes its head
under a key that is not escaped: what it addresses there can be the head of another lineage, and the etag keeps that
one in place, since it tags a head of its own (`lineages_apart`). `genesis_stays` is about the policy a lineage is
bound with.
-/

namespace YeetzS3

open Conc

namespace Lineage

/-! ### The paths of a lineage -/

/-- What follows a lineage's name in the path of one of its objects. -/
inductive Tail : List Str → Prop where
  | control {s : Str} (hs : s = "head".toList ∨ s = "incarnation".toList ∨ s = "tombstone".toList) : Tail [s]
  | content {s : Str} (hs : s = "objects".toList ∨ s = "checkpoints".toList) (d : RecordDigest) : Tail [s, d.hex]

theorem hex_ne_control {s : Str} {d : RecordDigest}
    (hs : s = "head".toList ∨ s = "incarnation".toList ∨ s = "tombstone".toList) : s ≠ d.hex := by
  rintro rfl
  have hv := d.valid
  rcases hs with hs | hs | hs
  all_goals
    rw [hs] at hv
    revert hv
    decide

/-- The name before a tail is determined. -/
theorem Tail.cancel {a b xs ys : List Str} (ha : Tail a) (hb : Tail b) (h : xs ++ a = ys ++ b) : xs = ys ∧ a = b := by
  have hlast := congrArg List.getLast? h
  cases ha with
  | control hs =>
    cases hb with
    | control hs' => exact List.append_inj' h rfl
    | content hs' d =>
      simp only [List.getLast?_append, List.getLast?_singleton, List.getLast?_cons_cons, Option.some_or,
        Option.some.injEq] at hlast
      exact absurd hlast (hex_ne_control hs)
  | content hs d =>
    cases hb with
    | control hs' =>
      simp only [List.getLast?_append, List.getLast?_singleton, List.getLast?_cons_cons, Option.some_or,
        Option.some.injEq] at hlast
      exact absurd hlast.symm (hex_ne_control hs')
    | content hs' d' => exact List.append_inj' h rfl

namespace KernelLineage

variable {l m : KernelLineage} {p : Str}

/-- The paths of a lineage's objects: its head, counter and tombstone, its records and its checkpoints. -/
def Owns (l : KernelLineage) : Region := fun p =>
  ∃ key tail, p = pathFrom key ∧ Tail tail ∧ wireSegments key = wireSegments l.value ++ tail

theorem owns_headKey (l : KernelLineage) : l.Owns (pathFrom l.headKey) :=
  ⟨_, _, rfl, .control (.inl rfl), l.wireSegments_headKey⟩

theorem owns_incarnationKey (l : KernelLineage) : l.Owns (pathFrom l.incarnationKey) :=
  ⟨_, _, rfl, .control (.inr (.inl rfl)), l.wireSegments_incarnationKey⟩

theorem owns_tombstoneKey (l : KernelLineage) : l.Owns (pathFrom l.tombstoneKey) :=
  ⟨_, _, rfl, .control (.inr (.inr rfl)), l.wireSegments_tombstoneKey⟩

theorem owns_objectKey (l : KernelLineage) (d : RecordDigest) : l.Owns (pathFrom (l.objectKey d)) :=
  ⟨_, _, rfl, .content (.inl rfl) d, l.wireSegments_objectKey d⟩

theorem owns_checkpointKey (l : KernelLineage) (d : RecordDigest) : l.Owns (pathFrom (l.checkpointKey d)) :=
  ⟨_, _, rfl, .content (.inr rfl) d, l.wireSegments_checkpointKey d⟩

theorem segments_valid (l : KernelLineage) {s : Str} (hs : s ∈ l.value.splitOn '/') :
    s ≠ [] ∧ ∀ c ∈ s, c.toNat < 128 := by
  have hv := l.valid
  unfold isValidLineage at hv
  dsimp only at hv
  split at hv
  · cases hv
  simp only [Bool.and_eq_true, List.all_eq_true, isValidIdentifier, decide_eq_true_eq, isAsciiGraphic] at hv
  obtain ⟨⟨⟨hne, -⟩, hall⟩, -⟩ := (hv.2 s hs).1
  refine ⟨hne, fun c hc => ?_⟩
  have := hall c hc
  omega

theorem wireSegments_value (l : KernelLineage) : wireSegments l.value = (l.value.splitOn '/').map encodeSegment := by
  rw [wireSegments, List.filter_eq_self.2 fun s hs => by simpa using (l.segments_valid hs).1]

/-- Names that go to one path are one name. -/
theorem value_inj (h : wireSegments l.value = wireSegments m.value) : l.value = m.value := by
  rw [l.wireSegments_value, m.wireSegments_value] at h
  have hback : ∀ n : KernelLineage, ((n.value.splitOn '/').map encodeSegment).map unescape = n.value.splitOn '/' := by
    intro n
    rw [List.map_map]
    refine (List.map_congr_left fun s hs => ?_).trans (List.map_id _)
    exact unescape_encodeSegment (n.segments_valid hs).2
  have hsplit : l.value.splitOn '/' = m.value.splitOn '/' := by rw [← hback l, h, hback m]
  rw [← @List.intercalate_splitOn _ l.value _ _ '/', hsplit, List.intercalate_splitOn]

/-- Two lineages share no path. -/
theorem value_eq_of_owns (hl : l.Owns p) (hm : m.Owns p) : l.value = m.value := by
  obtain ⟨key, tail, rfl, ht, hk⟩ := hl
  obtain ⟨key', tail', hp, ht', hk'⟩ := hm
  rw [pathFrom_inj, hk, hk'] at hp
  exact value_inj (ht.cancel ht' hp).1

/-- Of a lineage's paths, only the head's ends in its name. -/
theorem eq_headKey_of_owns (hm : m.Owns l.headKey) : l.headKey = pathFrom m.headKey := by
  obtain ⟨key, tail, hp, ht, hk⟩ := hm
  have hhead : tail = ["head".toList] := by
    cases ht with
    | @control s hs =>
      by_contra hne
      exact l.headKey_ne_pathFrom hk (fun h => hne (by rw [h])) hp
    | @content s hs d =>
      have hk : wireSegments key = (wireSegments m.value ++ [s]) ++ [d.hex] := by rw [hk]; simp
      exact absurd hp (l.headKey_ne_pathFrom hk fun h => hex_ne_control (.inl rfl) h.symm)
  rw [hp, pathFrom_inj, hk, hhead, m.wireSegments_headKey]

end KernelLineage

/-! ### The keyspaces' directories -/

/-- The paths under `keyspace/` and `keyspace-chunks/`. -/
def Reserved : Region := fun p =>
  (p.splitOn '/').head? = some "keyspace".toList ∨ (p.splitOn '/').head? = some "keyspace-chunks".toList

theorem head?_splitOn_append (a b : Str) : ((a ++ '/' :: b).splitOn '/').head? = (a.splitOn '/').head? := by
  rw [List.splitOn_append_cons_self, List.head?_append_of_ne_nil _ (List.splitOn_ne_nil _ _)]

theorem reserved_of_region {K : Keyspace.AtomicKeyspace} {p : Str} (h : K.Region p) : Reserved p := by
  have hself : ∀ s b : Str, '/' ∉ s → ((s ++ '/' :: b).splitOn '/').head? = some s := fun s b hs => by
    rw [head?_splitOn_append, List.splitOn_eq_singleton hs, List.head?_cons]
  have hsplit : ∀ a v n q : Str, a ++ '/' :: (v ++ '/' :: n) ++ ['/'] ++ q = a ++ '/' :: (v ++ '/' :: n ++ '/' :: q) := by
    intro a v n q
    simp
  rcases h with ⟨q, rfl⟩ | ⟨q, rfl⟩
  · have hdir : K.root ++ q = "keyspace".toList ++ '/' :: (K.ns ++ ['/'] ++ q) := by
      unfold Keyspace.AtomicKeyspace.root
      generalize "keyspace".toList = a
      simp
    have hslash : '/' ∉ "keyspace".toList := by decide
    exact .inl (hdir ▸ hself _ _ hslash)
  · have hdir := congrArg (· ++ q) K.chunkRootPrefix_eq
    have hslash : '/' ∉ "keyspace-chunks".toList := by decide
    exact .inr ((congrArg (fun p => (p.splitOn '/').head?) (hdir.trans (hsplit _ _ _ q))).trans (hself _ _ hslash))

namespace KernelLineage

variable {l : KernelLineage} {p : Str}

/-- The first segment of a lineage's name. -/
theorem first_segment (l : KernelLineage) : ∃ s ss, l.value.splitOn '/' = s :: ss ∧ s ≠ "keyspace".toList ∧
    s ≠ "keyspace-chunks".toList := by
  obtain ⟨s, ss, hs⟩ := List.exists_cons_of_ne_nil (List.splitOn_ne_nil '/' l.value)
  have hv := l.valid
  unfold isValidLineage at hv
  dsimp only at hv
  split at hv
  · cases hv
  next hr =>
  rw [hs, List.headD_cons, not_or] at hr
  exact ⟨s, ss, hs, hr⟩

theorem not_reserved_headKey (l : KernelLineage) : ¬ Reserved l.headKey := by
  obtain ⟨s, ss, hs, h₁, h₂⟩ := l.first_segment
  rw [Reserved, headKey, head?_splitOn_append, hs, List.head?_cons, Option.some_inj, Option.some_inj]
  exact not_or.2 ⟨h₁, h₂⟩

/-- No object of a lineage is in a keyspace's directory. -/
theorem not_reserved_of_owns (h : l.Owns p) : ¬ Reserved p := by
  obtain ⟨key, tail, rfl, -, hk⟩ := h
  obtain ⟨s, ss, hs, h₁, h₂⟩ := l.first_segment
  have hw : wireSegments key = encodeSegment s :: (ss.map encodeSegment ++ tail) := by
    rw [hk, l.wireSegments_value, hs]
    rfl
  have hne : ∀ r : Str, unescape r = r → s ≠ r → encodeSegment s ≠ r := by
    rintro r hr hsr h
    have hback : unescape (encodeSegment s) = s := unescape_encodeSegment (l.segments_valid (hs ▸ List.mem_cons_self)).2
    exact hsr (by rw [← hback, h, hr])
  rw [Reserved, splitOn_pathFrom (by rw [hw]; exact List.cons_ne_nil _ _), hw, List.head?_cons, Option.some_inj,
    Option.some_inj]
  exact not_or.2 ⟨hne _ (by decide) h₁, hne _ (by decide) h₂⟩

end KernelLineage

/-! ### Heads at their places -/

variable {X : Crates} {B : Backend} {l m : KernelLineage} {s s' : Store} {r : Req} {x : Resp r} {c : LineageCall}

/-- The bytes of a head, in one of its formats. -/
def CanonicalHead.Spelled (X : Crates) (h : CanonicalHead) (d : Bytes) : Prop := d = h.canonicalBytes X ∨ d = h.legacyV1Bytes X

/-- Bytes spell the head of one lineage at most. -/
theorem CanonicalHead.Spelled.lineage {h h' : CanonicalHead} {d : Bytes} (hd : h.Spelled X d) (hd' : h'.Spelled X d) :
    h.lineage.value = h'.lineage.value := by
  rcases hd with rfl | rfl
  · rcases hd' with hd' | hd'
    · have hw := congrArg X.head.fromSlice hd'
      rw [canonicalBytes, canonicalBytes, X.head.fromSlice_toVec, X.head.fromSlice_toVec] at hw
      exact congrArg HeadWire.lineage (Option.some.inj hw)
    · exact absurd hd' (canonicalBytes_ne_legacyV1Bytes h h')
  · rcases hd' with hd' | hd'
    · exact absurd hd'.symm (canonicalBytes_ne_legacyV1Bytes h' h)
    · have hw := congrArg X.headV1.fromSlice hd'
      rw [legacyV1Bytes, legacyV1Bytes, X.headV1.fromSlice_toVec, X.headV1.fromSlice_toVec] at hw
      exact congrArg HeadWireV1.lineage (Option.some.inj hw)

theorem CanonicalHead.spelled_of_fromBytes {d : Bytes} {h : CanonicalHead} (hd : fromBytes X l d = .ok h) :
    h.Spelled X d ∧ h.lineage = l := by
  obtain ⟨hl, -, hb | ⟨-, hb⟩⟩ := bytes_of_fromBytes hd
  · exact ⟨.inl hb, hl⟩
  · exact ⟨.inr hb, hl⟩

theorem LineageCall.Heads.lineage {h : CanonicalHead} (hh : c.Heads X l h) : h.lineage = l := by
  cases c with
  | appendGenesis record =>
    obtain ⟨i, rfl⟩ := hh
    rfl
  | appendGenesisBatch records =>
    obtain ⟨p, i, -, rfl⟩ := hh
    rfl
  | appendSuccessor record expected =>
    obtain ⟨-, n, -, rfl⟩ := hh
    rfl
  | appendSuccessorBatch records expected =>
    obtain ⟨-, n, p, -, -, rfl⟩ := hh
    rfl
  | _ => exact hh.elim

/-- No head of a lineage lies at the place of another lineage's head. -/
def HeadsApart (X : Crates) (s : Store) : Prop := ∀ (m : KernelLineage) (o : Object) (h : CanonicalHead),
  s.lookup (pathFrom m.headKey) = some o → h.Spelled X o.data → h.lineage.value = m.value

/-- The paths of heads. -/
def IsHeadPath : Region := fun p => ∃ m : KernelLineage, p = pathFrom m.headKey

theorem HeadsApart.congr (h : HeadsApart X s) (ha : Agree IsHeadPath s s') : HeadsApart X s' := fun m o g ho hg =>
  h m o g ((ha _ ⟨m, rfl⟩).symm.trans ho) hg

theorem HeadsApart.erase (h : HeadsApart X s) (p : Str) : HeadsApart X (AList.erase p s) := by
  intro m o g ho hg
  by_cases hp : pathFrom m.headKey = p
  · rw [hp, AList.lookup_erase] at ho
    cases ho
  · rw [AList.lookup_erase_ne hp] at ho
    exact h m o g ho hg

theorem HeadsApart.insert (h : HeadsApart X s) {g : CanonicalHead} (hg : g.lineage = l) (t : Etag) :
    HeadsApart X (AList.insert (pathFrom l.headKey) ⟨g.canonicalBytes X, t⟩ s) := by
  intro m o g' ho hg'
  by_cases hp : pathFrom m.headKey = pathFrom l.headKey
  · rw [hp, AList.lookup_insert] at ho
    cases ho
    have hv : m.value = l.value := KernelLineage.value_eq_of_owns m.owns_headKey (hp ▸ l.owns_headKey)
    have hs : g.Spelled X (g.canonicalBytes X) := .inl rfl
    rw [hv, ← hg, ← hs.lineage hg']
  · rw [AList.lookup_insert_ne hp] at ho
    exact h m o g' ho hg'

/-- An object with a tail of its own is no head. -/
theorem not_isHeadPath {key : Str} {tail : List Str} (ht : Tail tail) (hne : tail ≠ ["head".toList])
    (hk : wireSegments key = wireSegments l.value ++ tail) : ¬ IsHeadPath (pathFrom key) := by
  rintro ⟨m, hm⟩
  rw [pathFrom_inj, hk, m.wireSegments_headKey] at hm
  exact hne (ht.cancel (.control (.inl rfl)) hm).2

/-! ### What a call of a lineage leaves as it is -/

/-- A request of a lineage leaves a region it does not own as it is, unless another lineage's head is there. -/
theorem LineageCall.Asks.agree {R : Region} (hr : c.Asks X l B r) (hB : B.Sound) (ht : s.Tagged B) (hs : HeadsApart X s)
    (hx : B.exec s r x s') (hR : ∀ p, l.Owns p → ¬ R p)
    (hhead : R l.headKey → ∃ m : KernelLineage, m.value ≠ l.value ∧ l.headKey = pathFrom m.headKey) : Agree R s s' := by
  have hput : ∀ {key d cond} {x : Resp (.put key d cond)}, l.Owns (pathFrom key) → B.exec s (.put key d cond) x s' →
      Agree R s s' := by
    intro key d cond x ho hx
    have hin : Req.Within l.Owns (.put key d cond) := ho
    exact hin.frame hR hx
  have hdel : ∀ {d h e} {x : Resp (.deleteIf l.headKey e)}, CanonicalHead.Spelled X h d → h.lineage = l → B.tags d e →
      B.exec s (.deleteIf l.headKey e) x s' → Agree R s s' := by
    intro d h e x hd hl he hx
    obtain rfl | ⟨⟨o, ho, rfl⟩, rfl⟩ := Backend.deleteIf_store hx
    · exact .refl _
    refine .of_erase fun hp => ?_
    obtain ⟨m, hne, hm⟩ := hhead hp
    have hdata : o.data = d := hB _ _ _ (ht _ o ho) he
    rw [hm] at ho
    exact hne (hl ▸ (hs m o h ho (hdata ▸ hd))).symm
  rcases hr with ⟨p, rfl⟩ | hw
  · exact Backend.get_store hx ▸ .refl _
  cases hw with
  | record hr => exact hput (l.owns_objectKey _) hx
  | checkpoint checkpoint => exact hput (l.owns_checkpointKey _) hx
  | head hh cond => exact hput l.owns_headKey hx
  | evict hh he => exact hdel (.inl rfl) hh.lineage he hx
  | tombstone d => exact hput l.owns_tombstoneKey hx
  | counter d cond => exact hput l.owns_incarnationKey hx
  | remove hd he =>
    obtain ⟨hsp, hl⟩ := CanonicalHead.spelled_of_fromBytes hd
    exact hdel hsp hl he hx

/-- A request of a lineage puts no head at another's place. -/
theorem LineageCall.Asks.headsApart (hr : c.Asks X l B r) (hs : HeadsApart X s) (hx : B.exec s r x s') : HeadsApart X s' := by
  have hput : ∀ {key d cond tail} {x : Resp (.put key d cond)}, Tail tail → tail ≠ ["head".toList] →
      wireSegments key = wireSegments l.value ++ tail → B.exec s (.put key d cond) x s' → HeadsApart X s' := by
    intro key d cond tail x ht hne hk hx
    have hin : Req.Within (fun p => p = pathFrom key) (.put key d cond) := rfl
    refine hs.congr (hin.frame ?_ hx)
    rintro p rfl
    exact not_isHeadPath ht hne hk
  have hdel : ∀ {e} {x : Resp (.deleteIf l.headKey e)}, B.exec s (.deleteIf l.headKey e) x s' → HeadsApart X s' := by
    intro e x hx
    obtain rfl | ⟨-, rfl⟩ := Backend.deleteIf_store hx
    · exact hs
    · exact hs.erase _
  rcases hr with ⟨p, rfl⟩ | hw
  · exact Backend.get_store hx ▸ hs
  cases hw with
  | record hr => exact hput (.content (.inl rfl) _) (by simp) (l.wireSegments_objectKey _) hx
  | checkpoint checkpoint => exact hput (.content (.inr rfl) _) (by simp) (l.wireSegments_checkpointKey _) hx
  | head hh cond =>
    obtain rfl | ⟨-, t, -, rfl⟩ := Backend.put_store hx
    · exact hs
    · exact hs.insert hh.lineage t
  | evict hh he => exact hdel hx
  | tombstone d => exact hput (.control (.inr (.inr rfl))) (by decide) l.wireSegments_tombstoneKey hx
  | counter d cond => exact hput (.control (.inr (.inl rfl))) (by decide) l.wireSegments_incarnationKey hx
  | remove hd he => exact hdel hx

end Lineage

/-! ### The clients of a bucket -/

/-- A call on some lineage or on some keyspace of the bucket. -/
inductive BucketCall where
  | lineage (l : Lineage.KernelLineage) (c : Lineage.LineageCall)
  | keyspace (K : Keyspace.AtomicKeyspace) (c : Keyspace.SpaceCall)

namespace BucketCall

/-- What a call returns. -/
abbrev Res : BucketCall → Type
  | lineage _ c => c.Res
  | keyspace _ c => c.Res

/-- The program of a call. -/
def prog (X : Lineage.Crates) (fuel : ℕ) : (c : BucketCall) → Prog Req Resp c.Res
  | lineage l c => c.prog X l
  | keyspace K c => c.prog X.toOutside K fuel

/-- What a call may ask. -/
def Asks (X : Lineage.Crates) (B : Backend) : BucketCall → Req → Prop
  | lineage l c, r => c.Asks X l B r
  | keyspace K c, r => c.Asks X.toOutside K r

end BucketCall

/-- The clients of one bucket. -/
def bucketSystem (X : Lineage.Crates) (B : Backend) (fuel : ℕ) : System Store Req Resp BucketCall BucketCall.Res where
  prog := BucketCall.prog X fuel
  exec := B.exec
  init s := s.Tagged B ∧ Lineage.HeadsApart X s

variable {X : Lineage.Crates} {B : Backend} {fuel : ℕ} {w : World Store Req Resp BucketCall BucketCall.Res}

/-- Every step of a run on a bucket is one its call may make, in a bucket whose heads lie apart. -/
theorem obeys_of_bucket (hw : Reach (bucketSystem X B fuel) w) :
    Obeys (bucketSystem X B fuel) (fun s => s.Tagged B ∧ Lineage.HeadsApart X s) B.Answers (BucketCall.Asks X B) w := by
  refine Reach.obeys (fun _ hs => hs) (fun c => ?_) (fun c s r x s' hs hr hx => ?_) hw
  · cases c with
    | lineage l c => exact c.asks
    | keyspace K c => exact c.asks.under
  · refine ⟨⟨Backend.exec_tagged hx hs.1, ?_⟩, Backend.answers_of_exec hs.1 hx⟩
    cases c with
    | lineage l c => exact Lineage.LineageCall.Asks.headsApart hr hs.2 hx
    | keyspace K c =>
      have hin : r.Within K.Region := hr.elim Keyspace.within_of_reads Keyspace.within_of_writes
      refine hs.2.congr (hin.frame ?_ hx)
      rintro p hp ⟨m, rfl⟩
      exact Lineage.KernelLineage.not_reserved_of_owns m.owns_headKey (Lineage.reserved_of_region hp)

/-- Where equal etags name equal contents, a step of a lineage changes no object of another lineage and none in a
keyspace's directory, and a step of a keyspace changes no object of a lineage. -/
theorem lineages_apart (hB : B.Sound) (hw : Reach (bucketSystem X B fuel) w) {i t : ℕ} {r : Req} {x : Resp r}
    (ha : w.hist.Asked i t r x) :
    (∀ l c, w.hist.Started t (.lineage l c) → Agree Lineage.Reserved (w.hist.storeAt i) (w.hist.storeAt (i + 1)) ∧
      ∀ m : Lineage.KernelLineage, m.value ≠ l.value → Agree m.Owns (w.hist.storeAt i) (w.hist.storeAt (i + 1))) ∧
    ∀ K c, w.hist.Started t (.keyspace K c) → ∀ m : Lineage.KernelLineage,
      Agree m.Owns (w.hist.storeAt i) (w.hist.storeAt (i + 1)) := by
  obtain ⟨c', hc', hr, ⟨ht, hs⟩, hx⟩ := (obeys_of_bucket hw).asked ha
  constructor
  · intro l c hc
    obtain rfl := hc'.inj hc
    have hr : c.Asks X l B r := hr
    refine ⟨?_, fun m hne => ?_⟩
    · refine hr.agree hB ht hs hx (fun p hp => Lineage.KernelLineage.not_reserved_of_owns hp) fun h => ?_
      exact absurd h l.not_reserved_headKey
    · refine hr.agree hB ht hs hx (fun p hl hm => ?_) fun h => ?_
      · exact hne (Lineage.KernelLineage.value_eq_of_owns hm hl)
      · exact ⟨m, hne, Lineage.KernelLineage.eq_headKey_of_owns h⟩
  · intro K c hc m
    obtain rfl := hc'.inj hc
    have hr : c.Asks X.toOutside K r := hr
    have hin : r.Within K.Region := hr.elim Keyspace.within_of_reads Keyspace.within_of_writes
    refine hin.frame (fun p hp hm => ?_) hx
    exact Lineage.KernelLineage.not_reserved_of_owns hm (Lineage.reserved_of_region hp)

/-! ### A name that is the wire form of another -/

namespace Lineage

/-- A lineage whose name has a character that is escaped. -/
def percentLineage : KernelLineage := ⟨"a%b".toList, .successorCapable, by decide⟩

/-- The lineage named as the other one is written. -/
def escapedLineage : KernelLineage := ⟨"a%25b".toList, .successorCapable, by decide⟩

/-- A first record. -/
def firstRecord (l : KernelLineage) : CanonicalRecord :=
  ⟨l, 0, none, "t".toList, "s".toList, [7], "o".toList, "p".toList, "c".toList, first_valid⟩

/-- The head that lineage begins with. -/
def escapedHead : CanonicalHead := ⟨escapedLineage, 0, 0, (firstRecord escapedLineage).digest Serde.crates, none⟩

end Lineage

/-- A run of a bucket that was empty, on the honest backend. -/
def bucketRun (ms : List (Move BucketCall)) : World Store Req Resp BucketCall BucketCall.Res :=
  World.play (BucketCall.prog Lineage.Serde.crates 1) (Store.serve contentTag) ∅ ms

theorem bucketRun_reach (ms : List (Move BucketCall)) :
    Reach (bucketSystem Lineage.Serde.crates .honest 1) (bucketRun ms) := by
  have hempty : ∀ p, AList.lookup p (∅ : Store) = none := AList.lookup_empty
  have hinit : (bucketSystem Lineage.Serde.crates .honest 1).init ∅ := by
    refine ⟨fun p o ho => ?_, fun m o h ho => ?_⟩
    · exact absurd ((hempty p).symm.trans ho) (Option.some_ne_none o).symm
    · exact absurd ((hempty _).symm.trans ho) (Option.some_ne_none o).symm
  exact Reach.play Backend.exec_honest hinit ms

/-- Both lineages are begun. -/
def bothBegun : List (Move BucketCall) :=
  .start (.lineage Lineage.percentLineage (.appendGenesis (Lineage.firstRecord Lineage.percentLineage))) ::
    List.replicate 6 (.step 0) ++
    .start (.lineage Lineage.escapedLineage (.appendGenesis (Lineage.firstRecord Lineage.escapedLineage))) ::
    List.replicate 6 (.step 7)

/-- The second is destroyed, and its delete addresses the first one's head. -/
def destroyEscaped : List (Move BucketCall) :=
  bothBegun ++ .start (.lineage Lineage.escapedLineage (.destroy [] [] 0)) :: List.replicate 5 (.step 14)

/-- The request of a step, if it is one. -/
def requestAt (h : History BucketCall BucketCall.Res) (i : ℕ) : Option (ℕ × Req) :=
  match h.steps[i]? with
  | some ⟨.ask t r _, _, _⟩ => some (t, r)
  | _ => none

theorem asked_of_requestAt {h : History BucketCall BucketCall.Res} {i t : ℕ} {r : Req} (hr : requestAt h i = some (t, r)) :
    ∃ x, h.Asked i t r x := by
  unfold requestAt at hr
  split at hr
  · next x _ _ he =>
    cases hr
    exact ⟨x, _, he, rfl⟩
  · cases hr

set_option maxRecDepth 10000 in
/-- A delete that addresses another lineage's head leaves it there. -/
theorem lineages_apart_escaped : ∃ i t e x,
    (bucketRun destroyEscaped).hist.Asked i t (.deleteIf (pathFrom Lineage.percentLineage.headKey) e) x ∧
    (bucketRun destroyEscaped).hist.Started t (.lineage Lineage.escapedLineage (.destroy [] [] 0)) ∧
    Agree Lineage.percentLineage.Owns ((bucketRun destroyEscaped).hist.storeAt i)
      ((bucketRun destroyEscaped).hist.storeAt (i + 1)) := by
  have hr : requestAt (bucketRun destroyEscaped).hist 19 = some (14, .deleteIf (pathFrom Lineage.percentLineage.headKey)
      (contentTag (Lineage.escapedHead.canonicalBytes Lineage.Serde.crates))) := by decide +kernel
  have hs : (bucketRun destroyEscaped).hist.Started 14 (.lineage Lineage.escapedLineage (.destroy [] [] 0)) := by
    have hnow : (bucketRun bothBegun).hist.now = 14 := by decide +kernel
    rw [← hnow]
    exact World.started_play ..
  obtain ⟨x, ha⟩ := asked_of_requestAt hr
  obtain ⟨h, -⟩ := lineages_apart Backend.honest_sound (bucketRun_reach destroyEscaped) ha
  exact ⟨19, 14, _, x, ha, hs, (h _ _ hs).2 Lineage.percentLineage (by decide)⟩

/-! ### A lineage bound to its genesis -/

/-- Every head the calls through the handle `l` wrote is of generation 0. -/
def WritesGenesis (X : Lineage.Crates) (l : Lineage.KernelLineage) (h : History BucketCall BucketCall.Res) : Prop :=
  ∀ i t c key data cond x, h.Started t (.lineage l c) → h.Asked i t (.put key data cond) x →
    pathFrom key = pathFrom l.headKey → ∃ g : Lineage.CanonicalHead, g.lineage = l ∧ g.generation = 0 ∧
      data = g.canonicalBytes X

namespace Lineage

theorem toNat_validateRecordBatch {l : KernelLineage} {rs : List CanonicalRecord} {n : UInt64} {prior : Option RecordPosition}
    {terminal : RecordPosition} (h : validateRecordBatch X l rs n prior = .ok terminal) (hp : prior = none)
    (hrs : rs.length ≤ 1) : terminal.generation = n := by
  subst hp
  match rs with
  | [] => cases h
  | [r] =>
    rw [validateRecordBatch] at h
    split at h
    · cases h
    split at h
    · cases h
    split at h
    · cases h
    · cases h
      rfl

/-- The generation a call may publish, under a policy that allows no successor. -/
theorem LineageCall.Heads.generation {l : KernelLineage} {c : LineageCall} {h : CanonicalHead} (hh : c.Heads X l h)
    (hp : l.policy = .genesisOnly) (hb : ∀ rs terminal, c = .appendGenesisBatch rs →
      validateRecordBatch X l rs 0 none = .ok terminal → rs.length ≤ 1) : h.generation = 0 := by
  cases c with
  | appendGenesis record =>
    obtain ⟨i, rfl⟩ := hh
    rfl
  | appendGenesisBatch rs =>
    obtain ⟨terminal, i, ht, rfl⟩ := hh
    exact toNat_validateRecordBatch ht rfl (hb rs terminal rfl ht)
  | appendSuccessor record expected => exact absurd hp hh.1
  | appendSuccessorBatch rs expected => exact absurd hp hh.1
  | _ => exact hh.elim

end Lineage

/-- A lineage bound to its genesis writes no head past it, as long as every batch it accepts is of one record. -/
theorem genesis_stays {l : Lineage.KernelLineage} (hp : l.policy = .genesisOnly) (hw : Reach (bucketSystem X B fuel) w)
    (hb : ∀ t rs terminal, w.hist.Started t (.lineage l (.appendGenesisBatch rs)) →
      Lineage.validateRecordBatch X l rs 0 none = .ok terminal → rs.length ≤ 1) : WritesGenesis X l w.hist := by
  intro i t c key data cond x hc ha hk
  obtain ⟨c', hc', hr, -, -⟩ := (obeys_of_bucket hw).asked ha
  obtain rfl := hc'.inj hc
  have hr : c.Asks X l B (.put key data cond) := hr
  have htail : ∀ {key' tail}, pathFrom key' = pathFrom l.headKey → wireSegments key' = wireSegments l.value ++ tail →
      tail = ["head".toList] := by
    intro key' tail hk' hw'
    rw [pathFrom_inj, hw', l.wireSegments_headKey] at hk'
    exact List.append_cancel_left hk'
  rcases hr with ⟨p, hp'⟩ | hwr
  · cases hp'
  cases hwr with
  | record _ => cases htail hk (l.wireSegments_objectKey _)
  | checkpoint checkpoint => cases htail hk (l.wireSegments_checkpointKey _)
  | head hh _ =>
    refine ⟨_, hh.lineage, hh.generation hp fun rs terminal hcall => ?_, rfl⟩
    subst hcall
    exact hb t rs terminal hc
  | tombstone _ => exact absurd (htail hk l.wireSegments_tombstoneKey) (by decide)
  | counter _ _ => exact absurd (htail hk l.wireSegments_incarnationKey) (by decide)

namespace Lineage

/-- A lineage bound to its genesis. -/
def onceLineage : KernelLineage := ⟨"a".toList, .genesisOnly, letter_valid⟩

end Lineage

/-- A batch of one record, and one of two. -/
def batchOf (rs : List Lineage.CanonicalRecord) : List (Move BucketCall) :=
  .start (.lineage Lineage.onceLineage (.appendGenesisBatch rs)) :: List.replicate (4 + 2 * rs.length) (.step 0)

set_option maxRecDepth 10000 in
/-- A batch of one record. -/
theorem genesis_stays_single :
    WritesGenesis Lineage.Serde.crates Lineage.onceLineage (bucketRun (batchOf [Lineage.letterGenesis])).hist := by
  refine genesis_stays rfl (bucketRun_reach _) fun t rs terminal hs _ => ?_
  obtain ⟨e, he, hl⟩ := hs
  have hone : ((bucketRun (batchOf [Lineage.letterGenesis])).hist.steps.all fun e => match e.label with
      | .start (.lineage _ (.appendGenesisBatch rs)) => decide (rs.length ≤ 1)
      | _ => true) = true := by decide +kernel
  have hstep := List.all_eq_true.1 hone e (List.mem_of_getElem? he)
  rw [hl] at hstep
  exact of_decide_eq_true hstep

/-- The head a batch of two records leads to. -/
def Lineage.onceHead : Lineage.CanonicalHead :=
  ⟨Lineage.onceLineage, 1, 0, Lineage.letterSuccessor.digest Lineage.Serde.crates, Lineage.letterSuccessor.prior⟩

set_option maxRecDepth 10000 in
/-- A batch of two records takes a lineage bound to its genesis past it. -/
theorem batch_past_genesis : ∃ w, Reach (bucketSystem Lineage.Serde.crates .honest 1) w ∧
    Lineage.onceLineage.policy = .genesisOnly ∧ ¬ WritesGenesis Lineage.Serde.crates Lineage.onceLineage w.hist := by
  refine ⟨_, bucketRun_reach (batchOf [Lineage.letterGenesis, Lineage.letterSuccessor]), rfl, fun h => ?_⟩
  have hs := World.started_play (BucketCall.prog Lineage.Serde.crates 1) (Store.serve contentTag) ∅ []
    (List.replicate 8 (.step 0)) (.lineage Lineage.onceLineage (.appendGenesisBatch [Lineage.letterGenesis, Lineage.letterSuccessor]))
  have hr : requestAt (bucketRun (batchOf [Lineage.letterGenesis, Lineage.letterSuccessor])).hist 6 =
      some (0, .put Lineage.onceLineage.headKey (Lineage.onceHead.canonicalBytes Lineage.Serde.crates) none) := by
    decide +kernel
  obtain ⟨x, ha⟩ := asked_of_requestAt hr
  obtain ⟨g, -, h0, hg⟩ := h 6 0 _ _ _ _ x hs ha rfl
  have hw := congrArg Lineage.Serde.crates.head.fromSlice hg
  rw [Lineage.CanonicalHead.canonicalBytes, Lineage.CanonicalHead.canonicalBytes,
    Lineage.Serde.crates.head.fromSlice_toVec, Lineage.Serde.crates.head.fromSlice_toVec] at hw
  have hgen : (1 : UInt64) = g.generation := congrArg Lineage.HeadWire.generation (Option.some.inj hw)
  rw [h0] at hgen
  cases hgen

end YeetzS3
