import YeetzS3.Keyspace.Floor

/-!
# What a sweep collects

`delete_below` walks over three ranges of keys and deletes what it found. Each walk ends at the first key that is not
of its form, so what it finds is an initial part of what is listed (`runs_sweepWalk`). The deletes leave every other
path as it is; that no data key below the floor is left depends on the keys in between (`collection_exact`).
-/

namespace YeetzS3.Keyspace

open Conc

variable {K : AtomicKeyspace} {B : Backend} {s t : Store} {pfx : Str} {firstRetained : UInt64} {fuel : ℕ}

/-! ### The walks -/

/-- The key is `{pfx}{seq}` with a position below the floor. -/
def isBelow (pfx : Str) (firstRetained : UInt64) (key : Str) : Bool :=
  ((stripPrefix pfx key).bind parseSeqComponent).any fun seq => 0 < seq ∧ seq < firstRetained

theorem bind_parse_eq {key : Str} {seq : UInt64} :
    (stripPrefix pfx key).bind parseSeqComponent = some seq ↔ key = pfx ++ seqComponent seq := by
  rw [Option.bind_eq_some_iff]
  constructor
  · rintro ⟨digits, hs, hp⟩
    rw [stripPrefix_eq_some.1 hs, seqComponent_of_parse hp]
  · rintro rfl
    exact ⟨seqComponent seq, stripPrefix_eq_some.2 rfl, parseSeqComponent_seqComponent seq⟩

theorem isBelow_iff {key : Str} : isBelow pfx firstRetained key = true ↔
    ∃ seq, 0 < seq ∧ seq < firstRetained ∧ key = pfx ++ seqComponent seq := by
  rw [isBelow, Option.any_eq_true]
  constructor
  · rintro ⟨seq, hs, hseq⟩
    rw [decide_eq_true_eq] at hseq
    exact ⟨seq, hseq.1, hseq.2, bind_parse_eq.1 hs⟩
  · rintro ⟨seq, h0, hlt, rfl⟩
    exact ⟨seq, bind_parse_eq.2 rfl, decide_eq_true ⟨h0, hlt⟩⟩

/-- What the walk finds behind a cursor. -/
def foundFrom (K : AtomicKeyspace) (s : Store) (pfx : Str) (firstRetained : UInt64) (after : Option Str) : List Str :=
  (K.keysAfter s after).takeWhile (isBelow pfx firstRetained)

/-- Where a page of the walk leaves it. -/
def SweptTo (K : AtomicKeyspace) (s : Store) (pfx : Str) (firstRetained : UInt64) (rest total : List Str) :
    List Str ⊕ (Option Str × List Str) → Prop
  | .inl final => final = total
  | .inr (after, soFar) => ∃ b, after = some b ∧ pfx ++ seqComponent 0 ≤ b ∧ K.keysAfter s after = rest ∧
      soFar ++ foundFrom K s pfx firstRetained after = total

theorem sweepPage_sweptTo {stepsOverZero : Bool} {keys rest pending : List Str} {a : Str}
    (hk : K.keysAfter s (some a) = keys ++ rest) (ha : pfx ++ seqComponent 0 ≤ a) :
    SweptTo K s pfx firstRetained rest (pending ++ foundFrom K s pfx firstRetained (some a))
      (sweepPage pfx firstRetained stepsOverZero keys (some a) pending) := by
  induction keys generalizing a pending with
  | nil => exact ⟨a, rfl, ha, hk, rfl⟩
  | cons key keys ih =>
    have hnext : K.keysAfter s (some key) = keys ++ rest := keysAfter_cons hk
    have hlt : a < key := (AtomicKeyspace.mem_keysAfter.1 (hk ▸ List.mem_cons_self : key ∈ K.keysAfter s (some a))).2 a rfl
    have hfound : foundFrom K s pfx firstRetained (some a) =
        if isBelow pfx firstRetained key then key :: foundFrom K s pfx firstRetained (some key) else [] := by
      rw [foundFrom, hk, List.cons_append, List.takeWhile_cons, foundFrom, hnext]
    rw [sweepPage]
    cases hp : (stripPrefix pfx key).bind parseSeqComponent with
    | none =>
      have hno : isBelow pfx firstRetained key = false := by rw [isBelow, hp, Option.any_none]
      rw [hfound, hno]
      exact (List.append_nil pending).symm
    | some seq =>
      obtain rfl := bind_parse_eq.1 hp
      -- position 0 is at or before the cursor
      have h0 : 0 < seq := seqComponent_lt.1 (append_lt_append.1 (ha.trans_lt hlt))
      have hne : ¬ (seq = 0 ∧ stepsOverZero = true) := by
        rintro ⟨rfl, -⟩
        exact UInt64.lt_irrefl 0 h0
      dsimp only
      rw [if_neg hne]
      split
      · next hout =>
        have hno : isBelow pfx firstRetained (pfx ++ seqComponent seq) = false := by
          rw [isBelow, hp, Option.any_some, decide_eq_false_iff_not]
          rintro ⟨-, h⟩
          rcases hout with rfl | hout
          · exact absurd h0 (UInt64.lt_irrefl 0)
          · exact absurd h (UInt64.not_lt.2 hout)
        rw [hfound, hno]
        exact (List.append_nil pending).symm
      · next hin =>
        have hlt' : seq < firstRetained := UInt64.not_le.1 fun h => hin (.inr h)
        have hyes : isBelow pfx firstRetained (pfx ++ seqComponent seq) = true :=
          isBelow_iff.2 ⟨seq, h0, hlt', rfl⟩
        rw [hfound, hyes, if_pos rfl, ← List.singleton_append, ← List.append_assoc]
        exact ih hnext (ha.trans hlt.le)

/-- What a walk that ends found. -/
theorem runs_sweepWalk {stepsOverZero : Bool} {pending final : List Str} {a : Str} (ho : ¬ B.omits)
    (ha : pfx ++ seqComponent 0 ≤ a)
    (h : (sweepWalk K pfx firstRetained stepsOverZero fuel (some a) pending).run.Runs B.exec s (.ok final) t) :
    t = s ∧ final = pending ++ foundFrom K s pfx firstRetained (some a) := by
  induction fuel generalizing a pending with
  | zero => exact absurd h Prog.not_runs_stop
  | succ fuel ih =>
    obtain ⟨keys, u, hl, hrest⟩ := Prog.runs_bindE.1 h
    obtain ⟨hu, -, hkeys⟩ := runs_listAfter hl
    obtain rfl := hu.symm
    have hkeys := hkeys ho
    split at hrest
    · next hnil =>
      obtain ⟨he, rfl⟩ := Prog.runs_ret.1 hrest
      cases he
      have hnone : K.keysAfter t (some a) = [] := by
        rw [hkeys, List.take_eq_nil_iff] at hnil
        exact hnil.resolve_left (by decide)
      rw [foundFrom, hnone]
      exact ⟨rfl, (List.append_nil _).symm⟩
    · have hpage := @sweepPage_sweptTo _ _ _ firstRetained stepsOverZero _ _ pending _
        (List.take_append_drop 1000 (K.keysAfter s (some a))).symm ha
      rw [← hkeys] at hpage
      split at hrest
      · next final' hp =>
        obtain ⟨he, rfl⟩ := Prog.runs_ret.1 hrest
        cases he
        rw [hp] at hpage
        exact ⟨rfl, hpage⟩
      · next last soFar hp =>
        rw [hp] at hpage
        obtain ⟨b, rfl, hb, -, htotal⟩ := hpage
        obtain ⟨rfl, rfl⟩ := ih hb hrest
        exact ⟨rfl, htotal⟩

/-! ### The deletes -/

/-- On a backend that fails nothing, the keys are gone and nothing else is. -/
theorem runs_sweepDeletes {keys : List Str} {report report' : DeleteBelowReport} (hf : ¬ B.faults)
    (h : (sweepDeletes K keys report).run.Runs B.exec s (.ok report') t) :
    t = (keys.map (K.root ++ ·)).foldl (fun s p => s.erase p) s := by
  induction keys generalizing s report with
  | nil => exact (Prog.runs_ret.1 h).2
  | cons key keys ih =>
    obtain ⟨objectKey, u, hc, hd⟩ := Prog.runs_bindE.1 h
    cases hp : K.objectKey key with
    | error e =>
      rw [hp] at hc
      cases (Prog.runs_ret.1 hc).1
    | ok path =>
      rw [hp] at hc
      obtain ⟨he, rfl⟩ := Prog.runs_ret.1 hc
      cases he
      obtain ⟨rfl, hv⟩ := AtomicKeyspace.objectKey_ok hp
      obtain ⟨x, u', hx, hrest⟩ := Prog.runs_call.1 hd
      rw [List.map_cons, List.foldl_cons]
      rcases hx with ⟨rfl, rfl | ⟨hfault, -⟩⟩ | ⟨hfault, -⟩
      · rw [pathFrom_of_valid (AtomicKeyspace.validPath_root_append hv)] at hrest
        exact ih hrest
      · exact absurd hfault hf
      · exact absurd hfault hf

theorem lookup_foldl_erase {ps : List Str} {p : Str} :
    (ps.foldl (fun s p => s.erase p) s).lookup p = if p ∈ ps then none else s.lookup p := by
  induction ps generalizing s with
  | nil => rfl
  | cons q ps ih =>
    rw [List.foldl_cons, ih]
    by_cases hpq : p = q
    · subst hpq
      rw [AList.lookup_erase, ite_self, if_pos List.mem_cons_self]
    · simp only [AList.lookup_erase_ne hpq, List.mem_cons, or_iff_right hpq]

/-! ### What is left -/

/-- The cursor a walk begins behind. -/
def walkStart (pfx : Str) : Option Str := some (pfx ++ seqComponent 0)

/-- What a sweep deletes. -/
def sweptKeys (K : AtomicKeyspace) (s : Store) (dataPrefix : Str) (firstRetained : UInt64) : List Str :=
  (sweptPrefixes dataPrefix).flatMap fun pfx => foundFrom K s pfx firstRetained (walkStart pfx)

theorem runs_check {α : Type} {x : Except KeyspaceError α} {a : α} (h : (check x).run.Runs B.exec s (.ok a) t) :
    x = .ok a ∧ t = s := by
  cases x with
  | error e => cases (Prog.runs_ret.1 h).1
  | ok b =>
    obtain ⟨he, rfl⟩ := Prog.runs_ret.1 h
    exact ⟨congrArg _ (Except.ok.inj he).symm, rfl⟩

theorem runs_deleteBelow {scope dataPrefix : Str} {report : DeleteBelowReport} (hf : ¬ B.faults) (ho : ¬ B.omits)
    (h : (deleteBelow K fuel scope dataPrefix firstRetained).run.Runs B.exec s (.ok report) t) :
    t = ((sweptKeys K s dataPrefix firstRetained).map (K.root ++ ·)).foldl (fun s p => s.erase p) s := by
  obtain ⟨certPrefix, u, hc, hrest⟩ := Prog.runs_bindE.1 h
  obtain rfl := (runs_check hc).2.symm
  obtain ⟨certified, u, hfloor, hrest⟩ := Prog.runs_bindE.1 hrest
  obtain rfl := ((runs_iff_answer hf ho (Key.every_trimFloor (allowsReads_of looks_of_reads) ..)).1 hfloor).1.symm
  split at hrest
  · cases (Prog.runs_ret.1 hrest).1
  obtain ⟨v, u, hc, hrest⟩ := Prog.runs_bindE.1 hrest
  obtain rfl := (runs_check hc).2.symm
  obtain ⟨data, u, hdata, hrest⟩ := Prog.runs_bindE.1 hrest
  obtain ⟨hu, rfl⟩ := runs_sweepWalk ho le_rfl hdata
  obtain rfl := hu.symm
  obtain ⟨tombstones, u, htombstones, hrest⟩ := Prog.runs_bindE.1 hrest
  obtain ⟨hu, rfl⟩ := runs_sweepWalk ho le_rfl htombstones
  obtain rfl := hu.symm
  obtain ⟨counters, u, hcounters, hrest⟩ := Prog.runs_bindE.1 hrest
  obtain ⟨hu, rfl⟩ := runs_sweepWalk ho le_rfl hcounters
  obtain rfl := hu.symm
  rw [runs_sweepDeletes hf hrest, sweptKeys, sweptPrefixes]
  simp only [List.flatMap_cons, List.flatMap_nil, List.nil_append, List.append_nil, List.append_assoc, walkStart]

/-- Data positions below the floor are gone, the others are as they were, and so is every path that is no data key,
tombstone or counter of a position below the floor. -/
structure Collected (K : AtomicKeyspace) (s t : Store) (dataPrefix : Str) (firstRetained : UInt64) : Prop where
  gone : ∀ seq, 0 < seq → seq < firstRetained → t.lookup (K.root ++ (dataPrefix ++ seqComponent seq)) = none
  retained : ∀ seq, seq = 0 ∨ firstRetained ≤ seq →
    t.lookup (K.root ++ (dataPrefix ++ seqComponent seq)) = s.lookup (K.root ++ (dataPrefix ++ seqComponent seq))
  kept : ∀ p, (∀ pfx ∈ sweptPrefixes dataPrefix, ∀ seq, 0 < seq → seq < firstRetained →
    p ≠ K.root ++ (pfx ++ seqComponent seq)) → t.lookup p = s.lookup p

/-- No other key lies between the genesis position and a data key below the floor. -/
def Unbroken (K : AtomicKeyspace) (s : Store) (dataPrefix : Str) (firstRetained : UInt64) : Prop :=
  ∀ seq, 0 < seq → seq < firstRetained → dataPrefix ++ seqComponent seq ∈ K.keys s →
    ∀ key ∈ K.keys s, dataPrefix ++ seqComponent 0 < key → key < dataPrefix ++ seqComponent seq →
      ∃ seq', key = dataPrefix ++ seqComponent seq'

theorem mem_sweptKeys {dataPrefix key : Str} (h : key ∈ sweptKeys K s dataPrefix firstRetained) :
    ∃ pfx ∈ sweptPrefixes dataPrefix, ∃ seq, 0 < seq ∧ seq < firstRetained ∧ key = pfx ++ seqComponent seq := by
  obtain ⟨pfx, hp, hk⟩ := List.mem_flatMap.1 h
  exact ⟨pfx, hp, isBelow_iff.1 (List.mem_takeWhile_imp hk)⟩

/-- In a sorted list, what comes first is what is smaller. -/
theorem mem_takeWhile_of_sorted {l : List Str} {p : Str → Bool} {x : Str} (hs : l.Pairwise (· < ·)) :
    x ∈ l.takeWhile p ↔ x ∈ l ∧ p x = true ∧ ∀ y ∈ l, y < x → p y = true := by
  induction l with
  | nil => simp
  | cons z l ih =>
    obtain ⟨hz, hl⟩ := List.pairwise_cons.1 hs
    rw [List.takeWhile_cons]
    split
    · next hpz =>
      rw [List.mem_cons, ih hl]
      constructor
      · rintro (rfl | ⟨hx, hpx, hall⟩)
        · refine ⟨List.mem_cons_self, hpz, fun y hy hyx => ?_⟩
          rcases List.mem_cons.1 hy with rfl | hy
          · exact absurd hyx (lt_irrefl _)
          · exact absurd (hz y hy) (lt_asymm hyx)
        · refine ⟨List.mem_cons_of_mem _ hx, hpx, fun y hy hyx => ?_⟩
          rcases List.mem_cons.1 hy with rfl | hy
          · exact hpz
          · exact hall y hy hyx
      · rintro ⟨hx, hpx, hall⟩
        rcases List.mem_cons.1 hx with rfl | hx
        · exact .inl rfl
        · exact .inr ⟨hx, hpx, fun y hy => hall y (List.mem_cons_of_mem _ hy)⟩
    · next hpz =>
      constructor
      · exact fun h => absurd h List.not_mem_nil
      · rintro ⟨hx, hpx, hall⟩
        rcases List.mem_cons.1 hx with rfl | hx
        · exact absurd hpx hpz
        · exact absurd (hall z List.mem_cons_self (hz x hx)) hpz

/-- A data key below the floor is swept exactly when no other key is in the way. -/
theorem mem_foundFrom {seq : UInt64} (h0 : 0 < seq) (hlt : seq < firstRetained) :
    pfx ++ seqComponent seq ∈ foundFrom K s pfx firstRetained (walkStart pfx) ↔
      pfx ++ seqComponent seq ∈ K.keys s ∧
        ∀ key ∈ K.keys s, pfx ++ seqComponent 0 < key → key < pfx ++ seqComponent seq → ∃ seq', key = pfx ++ seqComponent seq' := by
  have hfirst : pfx ++ seqComponent 0 < pfx ++ seqComponent seq := append_lt_append.2 (seqComponent_lt.2 h0)
  rw [foundFrom, mem_takeWhile_of_sorted AtomicKeyspace.sorted_keysAfter, AtomicKeyspace.mem_keysAfter]
  constructor
  · rintro ⟨⟨hmem, -⟩, -, hall⟩
    refine ⟨hmem, fun key hkey hstart hend => ?_⟩
    obtain ⟨seq', -, -, hk⟩ := isBelow_iff.1
      (hall key (AtomicKeyspace.mem_keysAfter.2 ⟨hkey, fun a ha => Option.some.inj ha ▸ hstart⟩) hend)
    exact ⟨seq', hk⟩
  · rintro ⟨hmem, hall⟩
    refine ⟨⟨hmem, fun a ha => Option.some.inj ha ▸ hfirst⟩, isBelow_iff.2 ⟨seq, h0, hlt, rfl⟩, fun key hkey hend => ?_⟩
    obtain ⟨hkey, hstart⟩ := AtomicKeyspace.mem_keysAfter.1 hkey
    have hstart := hstart _ rfl
    obtain ⟨seq', rfl⟩ := hall key hkey hstart hend
    exact isBelow_iff.2 ⟨seq', seqComponent_lt.1 (append_lt_append.1 hstart),
      UInt64.lt_trans (seqComponent_lt.1 (append_lt_append.1 hend)) hlt, rfl⟩

/-- The mirrors of positions are no positions. -/
theorem position_ne_mirror {dataPrefix : Str} {seq seq' : UInt64} (hp : pfx ∈ sweptPrefixes dataPrefix)
    (h : dataPrefix ++ seqComponent seq = pfx ++ seqComponent seq') : pfx = dataPrefix ∧ seq = seq' := by
  have hlen : pfx.length = dataPrefix.length := by
    have := congrArg List.length h
    rw [List.length_append, List.length_append, seqComponent_length, seqComponent_length] at this
    omega
  simp only [sweptPrefixes, List.mem_cons, List.not_mem_nil, or_false] at hp
  rcases hp with rfl | rfl | rfl
  · exact ⟨rfl, seqComponent_injective (List.append_cancel_left h)⟩
  · rw [tombstoneKey_length] at hlen
    omega
  · rw [incarnationKey_length] at hlen
    omega

/-- The walks over the mirrors find no data key. -/
theorem mem_sweptKeys_data {dataPrefix : Str} {seq : UInt64} :
    dataPrefix ++ seqComponent seq ∈ sweptKeys K s dataPrefix firstRetained ↔
      dataPrefix ++ seqComponent seq ∈ foundFrom K s dataPrefix firstRetained (walkStart dataPrefix) := by
  rw [sweptKeys, List.mem_flatMap]
  constructor
  · rintro ⟨pfx, hp, hmem⟩
    obtain ⟨seq', -, -, he⟩ := isBelow_iff.1 (List.mem_takeWhile_imp hmem)
    obtain ⟨rfl, -⟩ := position_ne_mirror hp he
    exact hmem
  · exact fun hmem => ⟨dataPrefix, List.mem_cons_self, hmem⟩

/-- A sweep that returns has collected exactly what is below the floor if and only if no other key lies in between. -/
theorem collection_exact {scope dataPrefix : Str} {report : DeleteBelowReport} (hf : ¬ B.faults) (ho : ¬ B.omits)
    (h : (deleteBelow K fuel scope dataPrefix firstRetained).run.Runs B.exec s (.ok report) t) :
    Collected K s t dataPrefix firstRetained ↔ Unbroken K s dataPrefix firstRetained := by
  have hlookup : ∀ p, t.lookup p = if p ∈ (sweptKeys K s dataPrefix firstRetained).map (K.root ++ ·) then none else s.lookup p := by
    intro p
    rw [runs_deleteBelow hf ho h, lookup_foldl_erase]
  have hmem : ∀ key, K.root ++ key ∈ (sweptKeys K s dataPrefix firstRetained).map (K.root ++ ·) ↔
      key ∈ sweptKeys K s dataPrefix firstRetained := fun key =>
    List.mem_map_of_injective fun _ _ => List.append_cancel_left
  have hkept : ∀ p, (∀ pfx ∈ sweptPrefixes dataPrefix, ∀ seq, 0 < seq → seq < firstRetained →
      p ≠ K.root ++ (pfx ++ seqComponent seq)) → t.lookup p = s.lookup p := by
    intro p hp
    rw [hlookup, if_neg]
    intro hswept
    obtain ⟨key, hkey, rfl⟩ := List.mem_map.1 hswept
    obtain ⟨pfx, hpfx, seq, h0, hlt, rfl⟩ := mem_sweptKeys hkey
    exact hp pfx hpfx seq h0 hlt rfl
  constructor
  · rintro ⟨hgone, -, -⟩ seq h0 hlt hkey
    have hnone := hgone seq h0 hlt
    rw [hlookup] at hnone
    split at hnone
    · next hswept => exact ((mem_foundFrom h0 hlt).1 (mem_sweptKeys_data.1 ((hmem _).1 hswept))).2
    · exact absurd hnone (AtomicKeyspace.mem_keys_iff_lookup.1 hkey)
  · intro hclear
    refine ⟨fun seq h0 hlt => ?_, fun seq hseq => hkept _ fun pfx hpfx seq' h0 hlt he => ?_, hkept⟩
    · rw [hlookup]
      split
      · rfl
      · next hswept =>
        by_contra hne
        have hkey := AtomicKeyspace.mem_keys_iff_lookup.2 hne
        exact hswept ((hmem _).2 (mem_sweptKeys_data.2 ((mem_foundFrom h0 hlt).2 ⟨hkey, hclear seq h0 hlt hkey⟩)))
    · obtain ⟨-, rfl⟩ := position_ne_mirror hpfx (List.append_cancel_left he)
      rcases hseq with rfl | hseq
      · exact UInt64.lt_irrefl 0 h0
      · exact UInt64.not_lt.2 hseq hlt

/-! ### A sibling in the way -/

/-- Three keys, the second of which is no position, and a floor above them. -/
def siblingCalls : List SpaceCall :=
  [.create ("d/".toList ++ seqComponent 1) [] fun _ => [], .create ("d/".toList ++ seqComponent 1 ++ ".bak".toList) [] fun _ => [],
    .create ("d/".toList ++ seqComponent 2) [] fun _ => [], .proposeTrim [] 3]

/-- A sweep of these keys returns, with nothing remaining and the last one still there. -/
theorem sibling_run : ∃ s t report, Relation.ReflTransGen (Called plain letterSpace .honest) ∅ s ∧
    (deleteBelow letterSpace 9 [] "d/".toList 3).run.Runs Backend.honest.exec s (.ok report) t ∧ report.remaining = 0 ∧
    t.lookup (letterSpace.root ++ ("d/".toList ++ seqComponent 2)) ≠ none := by
  have h : ((session plain letterSpace 9 siblingCalls ∅).bind fun s =>
      let r := (deleteBelow letterSpace 9 [] "d/".toList 3).run.eval (Store.serve contentTag) s
      (r.1.bind Except.toOption).map fun report =>
        (report.remaining, (r.2.lookup (letterSpace.root ++ ("d/".toList ++ seqComponent 2))).isSome)) = some (0, true) := by decide +kernel
  obtain ⟨s, hs, h⟩ := Option.bind_eq_some_iff.1 h
  cases hr : (deleteBelow letterSpace 9 [] "d/".toList 3).run.eval (Store.serve contentTag) s with
  | mk res t =>
    rw [hr] at h
    rcases res with _ | _ | report
    · cases h
    · cases h
    · obtain ⟨h0, hl⟩ := Prod.mk.inj (Option.some.inj h)
      exact ⟨s, t, report, called_of_session hs, Prog.runs_of_eval Backend.exec_honest hr, h0, Option.isSome_iff_ne_none.1 hl⟩

theorem collection_exact_sibling : ∃ s t, Relation.ReflTransGen (Called plain letterSpace .honest) ∅ s ∧
    (Collected letterSpace s t "d/".toList 3 ↔ Unbroken letterSpace s "d/".toList 3) := by
  obtain ⟨s, t, report, hs, hr, -⟩ := sibling_run
  exact ⟨s, t, hs, collection_exact id id hr⟩

theorem sibling_left : ∃ s t report, Relation.ReflTransGen (Called plain letterSpace .honest) ∅ s ∧
    (deleteBelow letterSpace 9 [] "d/".toList 3).run.Runs Backend.honest.exec s (.ok report) t ∧ report.remaining = 0 ∧
    ¬ Collected letterSpace s t "d/".toList 3 := by
  obtain ⟨s, t, report, hs, hr, h0, hleft⟩ := sibling_run
  exact ⟨s, t, report, hs, hr, h0, fun hc => hleft (hc.gone 2 (by decide) (by decide))⟩

end YeetzS3.Keyspace
