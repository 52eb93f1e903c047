import YeetzS3.Counter
import YeetzS3.Conc.Era

/-!
# The three objects of a lifetime

A key and a lineage are kept the same way: a control object (the value, the head), a counter that says
which of its lifetimes is open, and a tombstone that is written before the first one is closed. This
module says what the store holds for one of them (`Slots`), which states are reachable (`Slots.Ok`),
what one request of any of its operations may change (`Slots.Goes`), and which requests those are.
What needs etags to name contents is stated under `Backend.Sound`; the witness order is not.
-/

namespace YeetzS3

open Conc

/-- The keys of one control object, its counter and its tombstone. A conditional delete names the control
by its key as it is; every other request names it as `pathFrom` writes it. -/
structure Slots where
  control : Str
  counter : Str
  tombstone : Str
  control_ne_counter : pathFrom control ≠ pathFrom counter
  control_ne_tombstone : pathFrom control ≠ pathFrom tombstone
  counter_ne_tombstone : pathFrom counter ≠ pathFrom tombstone
  verbatim_ne_counter : control ≠ pathFrom counter
  verbatim_ne_tombstone : control ≠ pathFrom tombstone

namespace Slots

variable (S : Slots)

/-- The control object. -/
def object (s : Store) : Option Object := s.lookup (pathFrom S.control)

/-- The lifetime the counter names: 0 without a counter. -/
def count (s : Store) : ℕ := (s.lookup (pathFrom S.counter)).elim 0 fun o => ofBeBytes o.data

/-- The control's content and the counter, as a cell with lifetimes. -/
def cell (s : Store) : Cell Bytes := ⟨(S.object s).map (·.data), S.count s⟩

/-- The counter object exists. -/
def Counted (s : Store) : Prop := s.lookup (pathFrom S.counter) ≠ none

/-- The tombstone exists. -/
def Witnessed (s : Store) : Prop := s.lookup (pathFrom S.tombstone) ≠ none

variable (B : Backend) (L : Lifetimes Bytes)

/-- What holds of the three objects in every reachable state. -/
structure Ok (s : Store) : Prop where
  tagged : s.Tagged B
  counter : ∀ o, s.lookup (pathFrom S.counter) = some o → ∃ n : UInt64, o.data = u64Bytes n
  witness : S.Counted s → S.Witnessed s
  sane : B.Sound → L.Sane (S.cell s)

/-- What one step may do to the three objects. -/
structure Goes (s s' : Store) : Prop where
  witnessed : S.Witnessed s → S.Witnessed s'
  counted : S.Counted s → S.Counted s'
  gone : S.object s ≠ none → S.object s' = none → S.Witnessed s
  step : B.Sound → L.Step (S.cell s) (S.cell s')

/-- A path that is none of the three. -/
def Spare (p : Str) : Prop := p ≠ pathFrom S.control ∧ p ≠ pathFrom S.counter ∧ p ≠ pathFrom S.tombstone

/-- A request that cannot change the three objects. -/
def Spares : Req → Prop
  | .get _ => True
  | .put p _ _ => S.Spare (pathFrom p)
  | .delete p => S.Spare (pathFrom p)
  | .deleteIf p _ => S.Spare p
  | .deleteObjects ps => ∀ p ∈ ps, S.Spare p
  | .list _ _ _ => True
  | .listSizes _ _ _ => True

/-- The requests the operations on the three objects make. -/
inductive Touches : Req → Prop where
  | control (d : Bytes) (c : Option Etag) : Touches (.put S.control d c)
  | counter (d : Bytes) (c : Option Etag) : Touches (.put S.counter d c)
  | tombstone (d : Bytes) : Touches (.put S.tombstone d none)
  | remove (e : Etag) : Touches (.deleteIf S.control e)
  | spare {r : Req} (h : S.Spares r) : Touches r

variable {S B L} {s s' : Store} {p : Str}

/-- The counter's value, read. -/
theorem count_of_lookup {o : Object} {n : UInt64} (h : s.lookup (pathFrom S.counter) = some o)
    (hn : o.data = u64Bytes n) : S.count s = n.toNat := by
  rw [count, h, Option.elim_some, hn, u64Bytes, ofBeBytes_beBytes]
  exact Nat.mod_eq_of_lt n.toNat_lt

theorem count_of_none (h : s.lookup (pathFrom S.counter) = none) : S.count s = 0 := by
  rw [count, h, Option.elim_none]

theorem Goes.refl (s : Store) : S.Goes B L s s where
  witnessed := id
  counted := id
  gone h h' := absurd h' h
  step _ := .refl _

/-- States that agree on the three objects. -/
structure Same (S : Slots) (s s' : Store) : Prop where
  control : s'.lookup (pathFrom S.control) = s.lookup (pathFrom S.control)
  counter : s'.lookup (pathFrom S.counter) = s.lookup (pathFrom S.counter)
  tombstone : s'.lookup (pathFrom S.tombstone) = s.lookup (pathFrom S.tombstone)

theorem Same.refl (s : Store) : S.Same s s := ⟨rfl, rfl, rfl⟩

theorem Same.trans {s₁ s₂ s₃ : Store} (h : S.Same s₁ s₂) (h' : S.Same s₂ s₃) : S.Same s₁ s₃ :=
  ⟨h'.control.trans h.control, h'.counter.trans h.counter, h'.tombstone.trans h.tombstone⟩

theorem Same.cell (h : S.Same s s') : S.cell s' = S.cell s := by
  rw [Slots.cell, Slots.cell, object, object, count, count, h.control, h.counter]

theorem Same.keeps (h : S.Same s s') (hok : S.Ok B L s) (ht : s'.Tagged B) : S.Ok B L s' ∧ S.Goes B L s s' := by
  have hw : S.Witnessed s' ↔ S.Witnessed s := by rw [Witnessed, Witnessed, h.tombstone]
  have hc : S.Counted s' ↔ S.Counted s := by rw [Counted, Counted, h.counter]
  refine ⟨⟨ht, fun o ho => hok.counter o (h.counter ▸ ho), fun h' => hw.2 (hok.witness (hc.1 h')), fun hB => ?_⟩,
    ⟨hw.2, hc.2, fun ho ho' => ?_, fun _ => ?_⟩⟩
  · rw [h.cell]
    exact hok.sane hB
  · rw [object, h.control] at ho'
    exact absurd ho' ho
  · rw [h.cell]
    exact .refl _

theorem same_insert {o : Object} (hp : S.Spare p) : S.Same s (s.insert p o) :=
  ⟨AList.lookup_insert_ne hp.1.symm, AList.lookup_insert_ne hp.2.1.symm, AList.lookup_insert_ne hp.2.2.symm⟩

theorem same_erase (hp : S.Spare p) : S.Same s (s.erase p) :=
  ⟨AList.lookup_erase_ne hp.1.symm, AList.lookup_erase_ne hp.2.1.symm, AList.lookup_erase_ne hp.2.2.symm⟩

theorem same_foldl_erase {ps : List Str} (hp : ∀ p ∈ ps, S.Spare p) : S.Same s (ps.foldl (fun s p => s.erase p) s) := by
  induction ps generalizing s with
  | nil => exact .refl s
  | cons p ps ih =>
    exact (same_erase (hp p (List.mem_cons_self ..))).trans (ih fun q hq => hp q (List.mem_cons_of_mem _ hq))

theorem Spares.same {r : Req} {x : Resp r} (hr : S.Spares r) (hx : B.exec s r x s') : S.Same s s' := by
  cases r with
  | get p => exact (Backend.get_store hx) ▸ .refl _
  | put p d c =>
    obtain rfl | ⟨-, t, -, rfl⟩ := Backend.put_store hx
    · exact .refl _
    · exact same_insert hr
  | delete p =>
    obtain rfl | rfl := Backend.delete_store hx
    · exact .refl _
    · exact same_erase hr
  | deleteIf p e =>
    obtain rfl | ⟨-, rfl⟩ := Backend.deleteIf_store hx
    · exact .refl _
    · exact same_erase hr
  | deleteObjects ps =>
    obtain ⟨rfl, -⟩ | ⟨-, gone, hg, rfl⟩ := hx
    · exact same_foldl_erase hr
    · exact same_foldl_erase fun p hp => hr p (hg hp)
  | list pfx after n => exact (Backend.list_store hx) ▸ .refl _
  | listSizes pfx after n => exact (Backend.listSizes_store hx) ▸ .refl _

/-- A request that spares the three objects. -/
theorem Spares.keeps {r : Req} {x : Resp r} (hr : S.Spares r) (hok : S.Ok B L s) (hx : B.exec s r x s') :
    S.Ok B L s' ∧ S.Goes B L s s' :=
  (hr.same hx).keeps hok (Backend.exec_tagged hx hok.tagged)

/-- A request that leaves another control behind published it. -/
theorem Touches.publishes {r : Req} {x : Resp r} {o : Object} (hr : S.Touches r) (hx : B.exec s r x s')
    (ho : S.object s' = some o) (hne : S.object s ≠ some o) : ∃ c, r = .put S.control o.data c := by
  have hsame : ∀ {p o'}, pathFrom S.control ≠ p → S.object (s.insert p o') = some o → False := fun hp ho => by
    rw [object, AList.lookup_insert_ne hp] at ho
    exact hne ho
  cases hr with
  | control d c =>
    obtain rfl | ⟨-, t, -, rfl⟩ := Backend.put_store hx
    · exact absurd ho hne
    · rw [object, AList.lookup_insert] at ho
      cases ho
      exact ⟨c, rfl⟩
  | counter d c =>
    obtain rfl | ⟨-, t, -, rfl⟩ := Backend.put_store hx
    · exact absurd ho hne
    · exact (hsame S.control_ne_counter ho).elim
  | tombstone d =>
    obtain rfl | ⟨-, t, -, rfl⟩ := Backend.put_store hx
    · exact absurd ho hne
    · exact (hsame S.control_ne_tombstone ho).elim
  | remove e =>
    obtain rfl | ⟨-, rfl⟩ := Backend.deleteIf_store hx
    · exact absurd ho hne
    · by_cases hp : pathFrom S.control = S.control
      · rw [object, hp, AList.lookup_erase] at ho
        cases ho
      · rw [object, AList.lookup_erase_ne hp] at ho
        exact absurd ho hne
  | spare h =>
    rw [object, (h.same hx).control] at ho
    exact absurd ho hne

/-- A request that moves the counter wrote it. -/
theorem Touches.moves {r : Req} {x : Resp r} (hr : S.Touches r) (hx : B.exec s r x s') (hne : S.count s' ≠ S.count s) :
    ∃ d c, r = .put S.counter d c := by
  have hsame : s'.lookup (pathFrom S.counter) = s.lookup (pathFrom S.counter) → False := fun h => by
    rw [count, count, h] at hne
    exact hne rfl
  cases hr with
  | control d c =>
    obtain rfl | ⟨-, t, -, rfl⟩ := Backend.put_store hx
    · exact absurd rfl hne
    · exact (hsame (AList.lookup_insert_ne S.control_ne_counter.symm)).elim
  | counter d c => exact ⟨d, c, rfl⟩
  | tombstone d =>
    obtain rfl | ⟨-, t, -, rfl⟩ := Backend.put_store hx
    · exact absurd rfl hne
    · exact (hsame (AList.lookup_insert_ne S.counter_ne_tombstone)).elim
  | remove e =>
    obtain rfl | ⟨-, rfl⟩ := Backend.deleteIf_store hx
    · exact absurd rfl hne
    · exact (hsame (AList.lookup_erase_ne S.verbatim_ne_counter.symm)).elim
  | spare h => exact (hsame (h.same hx).counter).elim

/-! ### The requests that touch the three objects -/

section
variable {d : Bytes} {e : Etag}

/-- What an etag names, when etags name contents. -/
theorem data_eq {b : Bytes} {o : Object} (hok : S.Ok B L s) (hB : B.Sound) (ho : s.lookup p = some o)
    (hb : B.tags b o.etag) : o.data = b :=
  hB _ _ _ (hok.tagged p o ho) hb

/-- The tombstone is put if absent. -/
theorem put_tombstone {x} (hok : S.Ok B L s) (hx : B.exec s (.put S.tombstone d none) x s') :
    S.Ok B L s' ∧ S.Goes B L s s' := by
  obtain rfl | ⟨ha, t, ht, rfl⟩ := Backend.put_store hx
  · exact ⟨hok, .refl _⟩
  have hc : (s.insert (pathFrom S.tombstone) ⟨d, t⟩).lookup (pathFrom S.control) = s.lookup (pathFrom S.control) :=
    AList.lookup_insert_ne S.control_ne_tombstone
  have hn : (s.insert (pathFrom S.tombstone) ⟨d, t⟩).lookup (pathFrom S.counter) = s.lookup (pathFrom S.counter) :=
    AList.lookup_insert_ne S.counter_ne_tombstone
  have hw : S.Witnessed (s.insert (pathFrom S.tombstone) ⟨d, t⟩) := by simp [Witnessed, AList.lookup_insert]
  have hcell : S.cell (s.insert (pathFrom S.tombstone) ⟨d, t⟩) = S.cell s := by
    rw [cell, cell, object, object, count, count, hc, hn]
  refine ⟨⟨hok.tagged.insert ht, fun o ho => hok.counter o (hn ▸ ho), fun _ => hw, fun hB => hcell ▸ hok.sane hB⟩,
    ⟨fun _ => hw, fun h => ?_, fun h h' => ?_, fun _ => hcell ▸ .refl _⟩⟩
  · rwa [Counted, hn]
  · rw [object, hc] at h'
    exact absurd h' h

/-- The counter is written: created at 1, or replaced by the number after the one its tag names. -/
theorem put_counter {x} {c : Option Etag} {n : UInt64} (hok : S.Ok B L s)
    (hx : B.exec s (.put S.counter (u64Bytes n) c) x s') (hw : S.Witnessed s)
    (hn : B.Sound → s.accepts (pathFrom S.counter) c = true → S.count s < n.toNat) :
    S.Ok B L s' ∧ S.Goes B L s s' := by
  obtain rfl | ⟨ha, t, ht, rfl⟩ := Backend.put_store hx
  · exact ⟨hok, .refl _⟩
  have hc : (s.insert (pathFrom S.counter) ⟨u64Bytes n, t⟩).lookup (pathFrom S.control) = s.lookup (pathFrom S.control) :=
    AList.lookup_insert_ne S.control_ne_counter
  have htomb : (s.insert (pathFrom S.counter) ⟨u64Bytes n, t⟩).lookup (pathFrom S.tombstone) =
      s.lookup (pathFrom S.tombstone) := AList.lookup_insert_ne S.counter_ne_tombstone.symm
  have hlook : (s.insert (pathFrom S.counter) ⟨u64Bytes n, t⟩).lookup (pathFrom S.counter) = some ⟨u64Bytes n, t⟩ :=
    AList.lookup_insert s
  have hw' : S.Witnessed (s.insert (pathFrom S.counter) ⟨u64Bytes n, t⟩) := by rwa [Witnessed, htomb]
  have hstep : B.Sound → L.Step (S.cell s) (S.cell (s.insert (pathFrom S.counter) ⟨u64Bytes n, t⟩)) := by
    intro hB
    rw [cell, cell, object, object, hc, count_of_lookup hlook rfl]
    exact .advance (hn hB ha).le
  refine ⟨⟨hok.tagged.insert ht, fun o ho => ?_, fun _ => hw', fun hB => (hstep hB).sane (hok.sane hB)⟩,
    ⟨fun _ => hw', fun _ => ?_, fun h h' => ?_, hstep⟩⟩
  · rw [hlook] at ho
    cases ho
    exact ⟨n, rfl⟩
  · rw [Counted, hlook]
    simp
  · rw [object, hc] at h'
    exact absurd h' h

/-- What a landed put of the control does to the three objects. -/
theorem put_control_keeps {t : Etag} (hok : S.Ok B L s) (ht : B.tags d t)
    (hstep : B.Sound → L.Step (S.cell s) ⟨some d, S.count s⟩) :
    S.Ok B L (s.insert (pathFrom S.control) ⟨d, t⟩) ∧ S.Goes B L s (s.insert (pathFrom S.control) ⟨d, t⟩) := by
  have hn : (s.insert (pathFrom S.control) ⟨d, t⟩).lookup (pathFrom S.counter) = s.lookup (pathFrom S.counter) :=
    AList.lookup_insert_ne S.control_ne_counter.symm
  have htomb : (s.insert (pathFrom S.control) ⟨d, t⟩).lookup (pathFrom S.tombstone) = s.lookup (pathFrom S.tombstone) :=
    AList.lookup_insert_ne S.control_ne_tombstone.symm
  have hobj : S.object (s.insert (pathFrom S.control) ⟨d, t⟩) = some ⟨d, t⟩ := AList.lookup_insert s
  have hcell : S.cell (s.insert (pathFrom S.control) ⟨d, t⟩) = ⟨some d, S.count s⟩ := by
    rw [cell, hobj, count, hn]
    rfl
  refine ⟨⟨hok.tagged.insert ht, fun o ho => hok.counter o (hn ▸ ho), fun h => ?_, fun hB => ?_⟩,
    ⟨fun h => ?_, fun h => ?_, fun _ h' => ?_, fun hB => hcell ▸ hstep hB⟩⟩
  · rw [Counted, hn] at h
    rw [Witnessed, htomb]
    exact hok.witness h
  · rw [hcell]
    exact (hstep hB).sane (hok.sane hB)
  · rwa [Witnessed, htomb]
  · rwa [Counted, hn]
  · rw [hobj] at h'
    cases h'

/-- The control is created, stamped with a lifetime that has begun. -/
theorem put_control_new {x} (hok : S.Ok B L s) (hx : B.exec s (.put S.control d none) x s')
    (hd : B.Sound → L.stamp d ≤ S.count s) : S.Ok B L s' ∧ S.Goes B L s s' := by
  obtain rfl | ⟨ha, t, ht, rfl⟩ := Backend.put_store hx
  · exact ⟨hok, .refl _⟩
  refine put_control_keeps hok ht fun hB => ?_
  rw [cell, object, Store.accepts_none.1 ha]
  exact .create (hd hB)

/-- The control is replaced by a successor of what its tag names. -/
theorem put_control_next {x} {b : Bytes} (hok : S.Ok B L s) (hx : B.exec s (.put S.control d (some e)) x s')
    (hb : B.tags b e) (hd : B.Sound → L.next b d) : S.Ok B L s' ∧ S.Goes B L s s' := by
  obtain rfl | ⟨ha, t, ht, rfl⟩ := Backend.put_store hx
  · exact ⟨hok, .refl _⟩
  obtain ⟨o, ho, rfl⟩ := Store.accepts_some.1 ha
  refine put_control_keeps hok ht fun hB => ?_
  rw [cell, object, ho, Option.map_some, data_eq hok hB ho hb]
  exact .replace (hd hB)

/-- A control of a closed lifetime is removed, once the tombstone is there. -/
theorem delete_control {x} {b : Bytes} (hok : S.Ok B L s) (hx : B.exec s (.deleteIf S.control e) x s')
    (hw : S.Witnessed s) (hb : B.tags b e) (hd : B.Sound → L.stamp b < S.count s) :
    S.Ok B L s' ∧ S.Goes B L s s' := by
  obtain rfl | ⟨⟨o, ho, rfl⟩, rfl⟩ := Backend.deleteIf_store hx
  · exact ⟨hok, .refl _⟩
  by_cases hv : S.control = pathFrom S.control
  swap
  · exact (same_erase ⟨hv, S.verbatim_ne_counter, S.verbatim_ne_tombstone⟩).keeps hok hok.tagged.erase
  rw [hv] at ho ⊢
  have hn : (s.erase (pathFrom S.control)).lookup (pathFrom S.counter) = s.lookup (pathFrom S.counter) :=
    AList.lookup_erase_ne S.control_ne_counter.symm
  have htomb : (s.erase (pathFrom S.control)).lookup (pathFrom S.tombstone) = s.lookup (pathFrom S.tombstone) :=
    AList.lookup_erase_ne S.control_ne_tombstone.symm
  have hobj : S.object (s.erase (pathFrom S.control)) = none := AList.lookup_erase ..
  have hw' : S.Witnessed (s.erase (pathFrom S.control)) := by rwa [Witnessed, htomb]
  have hstep : B.Sound → L.Step (S.cell s) (S.cell (s.erase (pathFrom S.control))) := by
    intro hB
    rw [cell, cell, hobj, object, ho, count, count, hn, Option.map_some, data_eq hok hB ho hb]
    exact .remove (hd hB)
  refine ⟨⟨hok.tagged.erase, fun o ho => hok.counter o (hn ▸ ho), fun _ => hw', fun hB => (hstep hB).sane (hok.sane hB)⟩,
    ⟨fun _ => hw', fun h => ?_, fun _ _ => hw, hstep⟩⟩
  rwa [Counted, hn]

end

end Slots

end YeetzS3
